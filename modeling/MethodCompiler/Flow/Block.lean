import MethodCompiler.Code.Statement

/-!
# Basic blocks

Code is cut before every label and after every statement that ends a block.
-/

namespace MethodCompiler

/-- A basic block by its first and last positions, both included. -/
structure Block where
  start : Nat
  last : Nat
  deriving DecidableEq, Repr, Inhabited

namespace Block

/-- The number of statements of a block. -/
def size (b : Block) : Nat := b.last - b.start + 1

def contains (b : Block) (position : Nat) : Bool := b.start ≤ position && position ≤ b.last

/-- The blocks of the code from `position` on, where the current block began at `start`. -/
def splitFrom (start position : Nat) : List Statement → List Block
  | [] => if start < position then [⟨start, position - 1⟩] else []
  | s :: rest =>
    let closed := if s.isLabel && start < position then [⟨start, position - 1⟩] else []
    let start := if s.isLabel && start < position then position else start
    if s.op.exitsBlock then closed ++ ⟨start, position⟩ :: splitFrom (position + 1) (position + 1) rest
    else closed ++ splitFrom start (position + 1) rest

/-- The basic blocks of some code, in order. -/
def split (code : List Statement) : List Block := splitFrom 0 0 code

/-- The statements of a block. -/
def statements (b : Block) (code : List Statement) : List Statement :=
  (code.drop b.start).take b.size

/-- The number of the block that holds a position. -/
def indexOf (blocks : List Block) (position : Nat) : Nat :=
  blocks.findIdx (·.contains position)

end Block

end MethodCompiler
