import MethodCompiler.Code.Statement
import MethodCompiler.Error

/-!
# Protected regions

A `try` statement opens a region and names its catch, finally and end labels. Walking forward, a
region passes from its protected part to its handler at its catch label, to its cleanup at its
finally label, and closes at `endfinally`, or at its end label when it has no cleanup. A region
remembers the regions around it as they stood when it opened, and so do the snapshots taken at
statements.
-/

namespace MethodCompiler

/-- Regions are numbered in the order in which they open. -/
abbrev RegionId := Nat

/-- A region of protected code. -/
structure Region where
  /-- The regions around it when it opened, innermost first, with the phases they were in. -/
  outer : List (RegionId × Phase)
  /-- The position of its `try`. -/
  start : Nat
  catchLabel : Option String
  finallyLabel : Option String
  endLabel : String
  deriving DecidableEq, Repr, Inhabited

/-- The innermost open region at a statement, with its phase. -/
abbrev RegionState := Option (RegionId × Phase)

namespace Region

/-- The region directly around it. -/
def parent? (r : Region) : Option RegionId := r.outer.head?.map (·.1)

/-- The phase that the region directly around it was in. -/
def parentPhase? (r : Region) : Option Phase := r.outer.head?.map (·.2)

/-- The regions around it, innermost first. -/
def ancestors (r : Region) : List RegionId := r.outer.map (·.1)

/-- The label bounds one of the parts of the region. -/
def owns (r : Region) (label : String) : Bool :=
  r.catchLabel == some label || r.finallyLabel == some label || r.endLabel == label

/-- The region that the `try` statement at a position opens. -/
def open? (s : Statement) (position : Nat) (outer : List (RegionId × Phase)) :
    Except RegionFault Region :=
  match s.operands with
  | [c, f, e] =>
    match e.label?, c.label?, f.label? with
    | none, _, _ => .error .missingEnd
    | some _, none, none => .error .missingHandler
    | some endLabel, catchLabel, finallyLabel =>
      .ok { outer, start := position, catchLabel, finallyLabel, endLabel }
  | _ => .error .malformedDescriptor

end Region

/-- Catch and finally labels end in the name of the phase that they open. -/
def isPhaseMarker (label : String) : Bool :=
  label.endsWith "_catch" || label.endsWith "_finally"

/-- The regions met so far and the stack of those still open, innermost first. -/
structure RegionTracker where
  regions : List Region := []
  stack : List (RegionId × Phase) := []
  deriving DecidableEq, Repr, Inhabited

namespace RegionTracker

/-- The innermost open region. -/
def current (t : RegionTracker) : RegionState := t.stack.head?

/-- The region with a number. -/
def region? (t : RegionTracker) (id : RegionId) : Option Region := t.regions[id]?

/-- The stack after a label. The labels of the innermost region move it on; a label of an outer
region, or one that reads like a phase boundary and belongs to no open region, breaks the nesting. -/
def crossLabel (t : RegionTracker) (label : String) :
    Except RegionFault (List (RegionId × Phase)) :=
  let foreign (outer : List (RegionId × Phase)) :=
    if outer.any (fun (id, _) ↦ (t.region? id).any (·.owns label)) || isPhaseMarker label then
      .error (.foreignLabel label)
    else .ok t.stack
  match t.stack with
  | [] => foreign []
  | (id, phase) :: outer =>
    match t.region? id with
    | none => foreign outer
    | some region =>
      if region.catchLabel == some label then
        if phase == .inTry then .ok ((id, .inCatch) :: outer) else .error (.lateCatch label phase)
      else if region.finallyLabel == some label then
        if phase == .inFinally then .error (.repeatedFinally label)
        else .ok ((id, .inFinally) :: outer)
      else if region.endLabel == label then
        if region.finallyLabel.isSome then .error (.earlyEnd label) else .ok outer
      else foreign outer

/-- Walk over the statement at a position. The state that comes back is the statement's own: a catch
or finally label belongs to the phase that it opens, an end label and a `try` to the region around,
`endfinally` to the cleanup that it closes. -/
def step (t : RegionTracker) (s : Statement) (position : Nat) :
    Except Error (RegionState × RegionTracker) := do
  let mismatch {α : Type} (r : Except RegionFault α) : Except Error α :=
    r.mapError (.regionMismatch position)
  let stack ← match s.label? with
    | some label => mismatch (t.crossLabel label)
    | none => pure t.stack
  let state := stack.head?
  match s.op with
  | .enterTry =>
    let region ← mismatch (Region.open? s position stack)
    return (state, ⟨t.regions ++ [region], (t.regions.length, .inTry) :: stack⟩)
  | .endFinally =>
    match stack with
    | (_, .inFinally) :: outer => return (state, ⟨t.regions, outer⟩)
    | _ => throw (.regionMismatch position .strayEndFinally)
  | _ => return (state, ⟨t.regions, stack⟩)

/-- The regions of finished code; none may be open any more. -/
def finish (t : RegionTracker) : Except Error (List Region) :=
  match t.stack with
  | [] => .ok t.regions
  | (id, _) :: _ => .error (.regionMismatch ((t.region? id).elim 0 (·.start)) .unclosed)

end RegionTracker

/-- The state of every statement of some code, and its regions. -/
structure RegionMap where
  states : List RegionState
  regions : List Region
  deriving DecidableEq, Repr, Inhabited

namespace RegionMap

/-- Walk over `code`, whose first statement has position `start`. -/
def scanFrom (t : RegionTracker) (start : Nat) : List Statement → Except Error RegionMap
  | [] => return ⟨[], ← t.finish⟩
  | s :: rest => do
    let (state, t) ← t.step s start
    let tail ← scanFrom t (start + 1) rest
    return ⟨state :: tail.states, tail.regions⟩

/-- The regions of `code`. -/
def scan (code : List Statement) : Except Error RegionMap := scanFrom {} 0 code

/-- The state of the statement at a position. -/
def stateAt (m : RegionMap) (position : Nat) : RegionState := m.states[position]?.join

end RegionMap

/-- The open regions at a state, innermost first, with their phases. -/
def stackAt (regions : List Region) : RegionState → List (RegionId × Phase)
  | none => []
  | some (id, phase) => (id, phase) :: (regions[id]?.elim [] (·.outer))

end MethodCompiler
