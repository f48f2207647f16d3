import MethodCompiler.Flow.Graph

/-!
# Live registers

A register is live where its value may still be read. The live sets of blocks are the least solution
of the usual backward equations, found by sweeps over the blocks from the last to the first until a
sweep changes nothing.
-/

namespace MethodCompiler

/-- A set of registers as an ascending list without repetitions. -/
abbrev RegisterSet := List Nat

namespace RegisterSet

def insert (r : Nat) : RegisterSet → RegisterSet
  | [] => [r]
  | x :: rest => if r < x then r :: x :: rest else if r == x then x :: rest else x :: insert r rest

def union (s t : RegisterSet) : RegisterSet := s.foldl (fun acc r ↦ insert r acc) t

def ofList (rs : List Nat) : RegisterSet := union rs []

def diff (s t : RegisterSet) : RegisterSet := s.filter fun r ↦ !t.contains r

def inter (s t : RegisterSet) : RegisterSet := s.filter t.contains

end RegisterSet

/-- What a block does to registers, and the blocks that can run after it. -/
structure BlockFlow where
  /-- Registers that are read before the block writes them. -/
  uses : RegisterSet
  /-- Registers that the block writes. -/
  defs : RegisterSet
  successors : List Nat
  deriving DecidableEq, Repr, Inhabited

namespace BlockFlow

/-- The registers used and written by statements that run after others which used `uses` and wrote
`defs`. A statement reads before it writes. -/
def gather (uses defs : RegisterSet) : List Statement → RegisterSet × RegisterSet
  | [] => (uses, defs)
  | s :: rest =>
    let fresh := s.reads.filter fun r ↦ !defs.contains r
    gather (RegisterSet.union fresh uses) (RegisterSet.union s.writes defs) rest

def ofBlock (g : FlowGraph) (code : List Statement) (id : Nat) (block : Block) : BlockFlow :=
  let (uses, defs) := gather [] [] (block.statements code)
  { uses, defs, successors := g.successors id }

/-- The registers live at the end of a block, given those live at the start of each block. -/
def liveOut (f : BlockFlow) (liveIn : Nat → RegisterSet) : RegisterSet :=
  f.successors.foldl (fun acc s ↦ RegisterSet.union (liveIn s) acc) []

/-- The registers live at the start of a block: those it uses, and those live at its end that it
does not write. -/
def liveIn (f : BlockFlow) (liveIn : Nat → RegisterSet) : RegisterSet :=
  RegisterSet.union (RegisterSet.diff (f.liveOut liveIn) f.defs) f.uses

end BlockFlow

/-- The registers live at the start and at the end of every block. -/
structure Liveness where
  liveIn : List RegisterSet
  liveOut : List RegisterSet
  /-- The registers that some statement writes. -/
  written : RegisterSet
  deriving DecidableEq, Repr, Inhabited

namespace Liveness

/-- One sweep from the last block to the first. A block sees the new sets of the blocks after it and
the old sets of the others. -/
def sweep (flows : List BlockFlow) (old : List RegisterSet) : List RegisterSet :=
  flows.zipIdx.foldr (fun (f, b) later ↦
    let sets (s : Nat) : RegisterSet :=
      if s ≤ b then old.getD s [] else later.getD (s - b - 1) []
    f.liveIn sets :: later) []

/-- Sweep until nothing changes, at most `fuel` times. -/
def iterate (flows : List BlockFlow) : Nat → List RegisterSet → List RegisterSet
  | 0, sets => sets
  | fuel + 1, sets =>
    let next := sweep flows sets
    if next == sets then sets else iterate flows fuel next

/-- A sweep that changes something adds a register to a block's set, so this many sweeps are enough. -/
def sweepBound (flows : List BlockFlow) : Nat :=
  flows.length * (flows.flatMap (·.uses)).length + 1

/-- The live registers of every block. -/
def compute (code : List Statement) (g : FlowGraph) : Liveness :=
  let flows := g.blocks.zipIdx.map fun (block, id) ↦ BlockFlow.ofBlock g code id block
  let liveIn := iterate flows (sweepBound flows) (flows.map fun _ ↦ [])
  { liveIn
    liveOut := flows.map (·.liveOut fun s ↦ liveIn.getD s [])
    written := RegisterSet.ofList (code.flatMap Statement.writes) }

end Liveness

end MethodCompiler
