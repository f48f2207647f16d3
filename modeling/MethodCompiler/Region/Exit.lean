import MethodCompiler.Code.Labels
import MethodCompiler.Region.Tracker

/-!
# Leaving protected regions

A return, a throw and an unconditional jump can leave regions. `exitChain` gives the regions that
such a transfer leaves, innermost first; each of them needs one `leave` before the transfer.
-/

namespace MethodCompiler

/-- A transfer of control that can leave regions. -/
inductive Exit where
  | ret
  | throw
  /-- A jump to the statement at a position. -/
  | jump (target : Nat)
  deriving DecidableEq, Repr, Inhabited

/-- The transfer that a statement performs, if it is one that can leave regions. -/
def Exit.of? (s : Statement) (labels : LabelTable) : Except Error (Option Exit) :=
  match s.op with
  | .ret => .ok (some .ret)
  | .throw | .rethrow => .ok (some .throw)
  | .jump =>
    match s.target? with
    | some label => return some (.jump (← labels.resolve label))
    | none => .ok none
  | _ => .ok none

namespace Region

/-- The position lies in the part of the region that runs in `phase`: its cleanup, or everything
from its `try` to its cleanup or end. -/
def holds (r : Region) (phase : Phase) (position : Nat) (labels : LabelTable) :
    Except Error Bool := do
  let stop ← labels.resolve r.endLabel
  match r.finallyLabel with
  | none => return r.start < position && position < stop
  | some label =>
    let cleanup ← labels.resolve label
    match phase with
    | .inFinally => return cleanup < position && position < stop
    | _ => return r.start < position && position < cleanup

end Region

/-- The regions that a transfer at a position leaves, innermost first, given the stack of open ones.
A region in its cleanup is not left again: it was left when the cleanup began, so a return and a
throw pass it by and a jump may not cross its bounds. -/
def exitChain (regions : List Region) (exit : Exit) (labels : LabelTable) (position : Nat) :
    List (RegionId × Phase) → Except Error (List RegionId)
  | [] => .ok []
  | (id, phase) :: outer =>
    match exit with
    | .ret => do
      let rest ← exitChain regions exit labels position outer
      return if phase == .inFinally then rest else id :: rest
    | .throw =>
      if phase == .inTry && (regions[id]?.any (·.catchLabel.isSome)) then .ok []
      else do
        let rest ← exitChain regions exit labels position outer
        return if phase == .inFinally then rest else id :: rest
    | .jump target => do
      let inside ← match regions[id]? with
        | some region => region.holds phase target labels
        | none => pure true
      if inside then return []
      else if phase == .inFinally then throw (.regionCrossingBranch .jump position)
      else
        let rest ← exitChain regions exit labels position outer
        return id :: rest

end MethodCompiler
