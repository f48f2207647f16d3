import MethodCompiler.Flow.Liveness

/-!
# Live intervals

Each register gets one interval of positions: from the first to the last place where it is accessed,
or where a written register is live into a block or out of one.
-/

namespace MethodCompiler

/-- The positions from `start` to `stop`, both included, at which a register keeps its slot. -/
structure Interval where
  start : Nat
  stop : Nat
  deriving DecidableEq, Repr, Inhabited

namespace Interval

/-- The interval of one position. -/
def single (position : Nat) : Interval := ⟨position, position⟩

/-- The least interval that also holds a position. -/
def touch (iv : Interval) (position : Nat) : Interval :=
  ⟨min iv.start position, max iv.stop position⟩

/-- Two intervals overlap in more than an end: at a shared end, the later register is written by the
statement that last reads the earlier one. -/
def overlaps (a b : Interval) : Bool := a.start < b.stop && b.start < a.stop

/-- The least interval around some positions. -/
def span? : List Nat → Option Interval
  | [] => none
  | p :: rest => some (rest.foldl touch (single p))

end Interval

/-- A register that has to keep its value at a position. -/
structure Touch where
  register : Nat
  position : Nat
  deriving DecidableEq, Repr, Inhabited

namespace Touch

/-- Every access of a register, in the order of statements. -/
def ofCode (code : List Statement) : List Touch :=
  code.zipIdx.flatMap fun (s, i) ↦ s.accesses.map fun a ↦ ⟨a.register, i⟩

/-- A written register touches the first statement of a block that it is live into, and the last one
of a block that it is live out of. A register that nothing writes carries no value across blocks. -/
def ofBlocks (g : FlowGraph) (l : Liveness) : List Touch :=
  g.blocks.zipIdx.flatMap fun (block, id) ↦
    (RegisterSet.inter (l.liveIn.getD id []) l.written).map (⟨·, block.start⟩) ++
      (RegisterSet.inter (l.liveOut.getD id []) l.written).map (⟨·, block.last⟩)

end Touch

/-- The interval of every register of some code, in ascending order of registers. -/
def intervals (code : List Statement) (g : FlowGraph) (l : Liveness) : List (Nat × Interval) :=
  let touches := Touch.ofCode code ++ Touch.ofBlocks g l
  (RegisterSet.ofList (touches.map (·.register))).filterMap fun r ↦
    (Interval.span? ((touches.filter (·.register == r)).map (·.position))).map (r, ·)

end MethodCompiler
