import MethodCompiler.Frame.Interval

/-!
# Packing registers into slots

Virtual registers take slots of the frame in the order in which code first touches them, always the
lowest slot that is free and whose earlier owners do not overlap. Registers whose intervals do not
overlap can so share a slot.
-/

namespace MethodCompiler

/-- A slot of the frame during packing. -/
structure Slot where
  /-- The registers that have had the slot, with their intervals, latest first. -/
  owners : List (Nat × Interval)
  /-- Some owner may still need its value. -/
  held : Bool
  deriving DecidableEq, Repr, Inhabited

namespace Slot

/-- The slot is free and none of its owners overlaps the interval. -/
def accepts (s : Slot) (iv : Interval) : Bool :=
  !s.held && s.owners.all fun (_, owner) ↦ !owner.overlaps iv

/-- Give the slot to a register. -/
def take (s : Slot) (register : Nat) (iv : Interval) : Slot :=
  { owners := (register, iv) :: s.owners, held := true }

/-- Free the slot once the intervals of its owners have ended. -/
def release (position : Nat) (s : Slot) : Slot :=
  { s with held := s.held && !s.owners.all fun (_, owner) ↦ owner.stop ≤ position }

end Slot

/-- The slots handed out so far, and which register has which. -/
structure SlotFile where
  slots : List Slot := []
  assignment : List (Nat × Nat) := []
  deriving DecidableEq, Repr, Inhabited

namespace SlotFile

/-- The slot of a register. -/
def slot? (f : SlotFile) (register : Nat) : Option Nat :=
  (f.assignment.find? (·.1 == register)).map (·.2)

/-- Give a register a slot unless it has one: the lowest that accepts its interval, or a new one
while there are fewer than `limit`. -/
def claim (limit : Nat) (intervals : List (Nat × Interval)) (f : SlotFile) (register : Nat) :
    Option SlotFile :=
  if (f.slot? register).isSome then some f
  else
    let iv := ((intervals.find? (·.1 == register)).map (·.2)).getD (Interval.single 0)
    match f.slots.findIdx? (·.accepts iv) with
    | some i =>
      some ⟨f.slots.modify i (·.take register iv), (register, i) :: f.assignment⟩
    | none =>
      if f.slots.length < limit then
        some ⟨f.slots ++ [Slot.take ⟨[], false⟩ register iv],
          (register, f.slots.length) :: f.assignment⟩
      else none

/-- Give slots to the registers of the statement at a position, then free the slots that end there. -/
def step (limit : Nat) (intervals : List (Nat × Interval)) (f : SlotFile) (s : Statement)
    (position : Nat) : Option SlotFile := do
  let f ← (s.accesses.map (·.register)).foldlM (claim limit intervals) f
  return { f with slots := f.slots.map (Slot.release position) }

/-- Walk over `code`, whose first statement has position `start`. -/
def walk (limit : Nat) (intervals : List (Nat × Interval)) (f : SlotFile) (start : Nat) :
    List Statement → Option SlotFile
  | [] => some f
  | s :: rest => do walk limit intervals (← f.step limit intervals s start) (start + 1) rest

end SlotFile

/-- Which register has which slot of a frame. -/
structure Packing where
  /-- The number of slots. -/
  count : Nat
  /-- The slot of each register, in ascending order of registers. -/
  assignment : List (Nat × Nat)
  intervals : List (Nat × Interval)
  deriving DecidableEq, Repr, Inhabited

namespace Packing

/-- The slot of a register; a register that code never accesses keeps its number. -/
def slotOf (p : Packing) (register : Nat) : Nat :=
  ((p.assignment.find? (·.1 == register)).map (·.2)).getD register

/-- The registers that share a slot, in ascending order. -/
def owners (p : Packing) (slot : Nat) : List Nat :=
  (p.assignment.filter (·.2 == slot)).map (·.1)

/-- Two registers with overlapping intervals. -/
def clash (p : Packing) (a b : Nat) : Bool :=
  match p.intervals.find? (·.1 == a), p.intervals.find? (·.1 == b) with
  | some (_, x), some (_, y) => x.overlaps y
  | _, _ => false

/-- The pairs among some registers that clash, each register with the later ones. -/
def clashes (p : Packing) : List Nat → List (Nat × Nat)
  | [] => []
  | a :: rest => (rest.filter (p.clash a)).map (a, ·) ++ p.clashes rest

/-- The pairs of registers that share a slot though their intervals overlap. -/
def conflicts (p : Packing) : List (Nat × Nat) :=
  (List.range p.count).flatMap fun slot ↦ p.clashes (p.owners slot)

/-- The code with every register replaced by its slot. -/
def apply (p : Packing) (code : List Statement) : List Statement :=
  code.map (·.mapRegisters p.slotOf)

end Packing

/-- Pack the registers of a function into at most `limit` slots. -/
def pack (function : String) (code : List Statement) (g : FlowGraph) (limit : Nat) :
    Except Error Packing :=
  let ivs := intervals code g (Liveness.compute code g)
  match SlotFile.walk limit ivs {} 0 code with
  | none => .error (.registerExhausted function limit)
  | some f => .ok {
      count := f.slots.length
      assignment := ivs.filterMap fun (r, _) ↦ (f.slot? r).map (r, ·)
      intervals := ivs }

/-- Pack code where it stands. It is rewritten once all its registers have slots, and stays as it is
when the slots run out. -/
def packCode (function : String) (code : List Statement) (g : FlowGraph) (limit : Nat) :
    Except Error Packing × List Statement :=
  match pack function code g limit with
  | .ok p => (.ok p, p.apply code)
  | .error e => (.error e, code)

end MethodCompiler
