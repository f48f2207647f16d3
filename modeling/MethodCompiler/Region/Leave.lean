import MethodCompiler.Region.Exit

/-!
# Explicit region exits

Before every transfer that leaves protected regions stands one `leave` for each of them. Leaves that
are already there are counted, so a second insertion adds none.
-/

namespace MethodCompiler

/-- The number of leaves directly before a position, given the statements before it, nearest first. -/
def leavesBefore (before : List Statement) : Nat := (before.takeWhile (·.op == .leave)).length

/-- The number of leaves that the statement at a position needs. A conditional branch must stay
within the part of the region that it stands in. -/
def leavesNeeded (regions : List Region) (stack : List (RegionId × Phase)) (labels : LabelTable)
    (s : Statement) (position : Nat) : Except Error Nat := do
  if stack.isEmpty then return 0
  if s.op.isConditionalBranch then
    match s.target? with
    | none => return 0
    | some label =>
      let target ← labels.resolve label
      let chain ← exitChain regions (.jump target) labels position stack
      if chain.isEmpty then return 0 else throw (.regionCrossingBranch s.op position)
  else
    match ← Exit.of? s labels with
    | none => return 0
    | some exit => return (← exitChain regions exit labels position stack).length

/-- Continue over `rest`, with the statements already placed before it, nearest first, and the label
positions of both parts together. -/
def insertLeavesFrom (t : RegionTracker) (labels : LabelTable) (before : List Statement) :
    List Statement → Except Error LabelledCode
  | [] => do
    let _ ← t.finish
    return ⟨before.reverse, labels⟩
  | s :: rest => do
    let position := before.length
    let (state, t) ← t.step s position
    let needed ← leavesNeeded t.regions (stackAt t.regions state) labels s position
    let missing := needed - leavesBefore before
    insertLeavesFrom t (labels.shift position missing)
      (s :: (List.replicate missing Statement.leave ++ before)) rest

/-- Insert the leaves that `code` needs. -/
def insertLeaves (code : List Statement) : Except Error LabelledCode := do
  insertLeavesFrom {} (← LabelTable.build code) [] code

end MethodCompiler
