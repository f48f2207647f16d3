import MethodCompiler.Proofs.NeededLeaves

/-!
# Code that has its leaves

Leaves that stand directly before a transfer count against those that it needs. In code that has got its
leaves they are enough, also where the code had some of its own, too few or too many: the walk over the
result finds the same regions open, and moving labels without changing their order has changed no exit
chain. So a second insertion adds nothing.
-/

namespace MethodCompiler

variable {code : List Statement} {labels : LabelTable} {need : Nat → Nat} {t : RegionTracker}
  {before rest : List Statement} {i n : Nat}

/-! ### Leaves in the code -/

private theorem LabelTable.shift_zero (labels : LabelTable) (start : Nat) :
    labels.shift start 0 = labels := by
  have hid : (fun e : String × Nat ↦ (e.1, if start ≤ e.2 then e.2 + 0 else e.2)) = id := by
    funext e
    simp
  rw [shift, hid, List.map_id]

private theorem leavesBefore_replicate (n : Nat) (before : List Statement) :
    leavesBefore (List.replicate n Statement.leave ++ before) = n + leavesBefore before := by
  have hleaves : ∀ s ∈ List.replicate n Statement.leave, (s.op == .leave) = true := by
    intro s hs
    rw [List.eq_of_mem_replicate hs]
    rfl
  rw [leavesBefore, List.takeWhile_append_of_pos hleaves, List.length_append, List.length_replicate,
    leavesBefore]

/-- A leave is no transfer. -/
private theorem leavesNeeded_leave (regions : List Region) (stack : RegionStack) (labels : LabelTable)
    (position : Nat) : leavesNeeded regions stack labels .leave position = .ok 0 := by
  rw [leavesNeeded]
  split <;> rfl

/-- A statement with enough leaves before it gets no more. -/
private theorem insertLeavesFrom_of_enough {s : Statement} {stack : RegionStack} {t' : RegionTracker}
    (hsteps : t.Steps s before.length stack t')
    (hneeded : leavesNeeded t'.regions (stackAt t'.regions stack.head?) labels s before.length = .ok n)
    (henough : n ≤ leavesBefore before) :
    insertLeavesFrom t labels before (s :: rest) = insertLeavesFrom t' labels (s :: before) rest := by
  have hmissing : n - leavesBefore before = 0 := Nat.sub_eq_zero_of_le henough
  rw [insertLeavesFrom, RegionTracker.step_of_steps hsteps]
  simp only [bind, Except.bind, hneeded, hmissing, LabelTable.shift_zero, List.replicate_zero,
    List.nil_append]

private theorem insertLeavesFrom_leaves (t : RegionTracker) (labels : LabelTable) (before : List Statement)
    (n : Nat) (rest : List Statement) :
    insertLeavesFrom t labels before (List.replicate n Statement.leave ++ rest) =
      insertLeavesFrom t labels (List.replicate n Statement.leave ++ before) rest := by
  induction n generalizing before with
  | zero => rfl
  | succ n ih =>
    have hsteps : t.Steps .leave before.length t.stack t := .plain rfl (by decide) (by decide)
    rw [List.replicate_succ, List.cons_append, insertLeavesFrom_of_enough hsteps
      (leavesNeeded_leave _ _ _ _) (Nat.zero_le _), ih, ← List.replicate_succ, List.replicate_succ',
      List.append_assoc, List.singleton_append]

/-! ### Enough leaves -/

/-- Code whose statements all have enough leaves stays as it is. -/
theorem insertLeavesFrom_padded (labels : LabelTable) (need : Nat → Nat)
    (tracker : Nat → RegionTracker) (stack : Nat → RegionStack) (before : List Statement)
    (hall : ∀ i s, code[i]? = some s →
      (tracker i).Steps s (before.length + (paddedStart need i + need i)) (stack i) (tracker (i + 1)) ∧
      ∃ n, leavesNeeded (tracker (i + 1)).regions
          (stackAt (tracker (i + 1)).regions (stack i).head?) labels s
          (before.length + (paddedStart need i + need i)) = .ok n ∧
        n ≤ need i + leavesBefore ((padded need (code.take i)).reverse ++ before))
    (hend : (tracker code.length).stack = []) :
    insertLeavesFrom (tracker 0) labels before (padded need code) =
      .ok ⟨before.reverse ++ padded need code, labels⟩ := by
  induction code generalizing need tracker stack before with
  | nil =>
    rw [padded, insertLeavesFrom, RegionTracker.finish]
    rw [List.length_nil] at hend
    rw [hend, List.append_nil]
    rfl
  | cons s rest ih =>
    obtain ⟨hsteps, n, hneeded, henough⟩ := hall 0 s rfl
    have hlength : (List.replicate (need 0) Statement.leave ++ before).length =
        before.length + (paddedStart need 0 + need 0) := by
      rw [List.length_append, List.length_replicate, paddedStart]
      omega
    rw [← hlength] at hsteps hneeded
    rw [List.take_zero, padded, List.reverse_nil, List.nil_append, ← leavesBefore_replicate] at henough
    rw [padded, insertLeavesFrom_leaves, insertLeavesFrom_of_enough hsteps hneeded henough,
      ih (fun i ↦ need (i + 1)) (fun i ↦ tracker (i + 1)) (fun i ↦ stack (i + 1)) _ ?_ hend]
    · simp
    · intro i u hu
      have hposition : (s :: (List.replicate (need 0) Statement.leave ++ before)).length +
          (paddedStart (fun i ↦ need (i + 1)) i + need (i + 1)) =
            before.length + (paddedStart need (i + 1) + need (i + 1)) := by
        rw [List.length_cons, hlength, paddedStart, paddedStart_succ]
        omega
      have hbefore : (padded (fun i ↦ need (i + 1)) (rest.take i)).reverse ++
          s :: (List.replicate (need 0) Statement.leave ++ before) =
            (padded need ((s :: rest).take (i + 1))).reverse ++ before := by
        simp [padded]
      rw [hposition, hbefore]
      exact hall (i + 1) u hu

/-- Where leaves have been inserted there are enough, by the labels of the result. -/
private theorem Walk.Fills.exists_enough {w : Walk code} (h : w.Fills labels need) {s : Statement}
    (hs : code[i]? = some s) (position : Nat) :
    ∃ n, leavesNeeded (w.tracker (i + 1)).regions
        (stackAt (w.tracker (i + 1)).regions (w.stack i).head?) (labels.spread need code.length) s
        position = .ok n ∧
      n ≤ need i + leavesBefore (padded need (code.take i)).reverse := by
  have hi := (List.getElem?_eq_some_iff.mp hs).1
  obtain ⟨n, hneeded, hneed⟩ := h.missing hs
  rw [← w.leavesNeeded_allRegions hs] at hneeded
  refine ⟨n, ?_, by omega⟩
  rw [← w.leavesNeeded_allRegions hs]
  exact leavesNeeded_spread (h.pads.exists_start hi) (Nat.le_of_lt hi) hneeded

/-- Inserting leaves into code that has got them changes nothing, and gives the same labels. -/
theorem insertLeaves_of_inserted {out : LabelledCode} (h : insertLeaves code = .ok out) :
    insertLeaves out.statements = .ok out := by
  obtain ⟨labels, w, need, hlabels, hfills, rfl⟩ := exists_fills h
  have hinsert := insertLeavesFrom_padded (labels.spread need code.length) need w.tracker w.stack []
    (fun i s hs ↦ by
      rw [List.length_nil, Nat.zero_add, List.append_nil]
      exact ⟨hfills.pads.steps_padded hs, hfills.exists_enough hs _⟩) hfills.finished
  rw [w.start, List.reverse_nil, List.nil_append] at hinsert
  exact bind_eq_ok.mpr ⟨_, LabelTable.build_padded hlabels, hinsert⟩

/-- `try { try { leave; jump done } catch { leave; leave; leave; return } } finally {} done: return` -/
private def partedCode : List Statement :=
  [.of .enterTry [.null, .label "outer_finally", .label "done"],
    .of .enterTry [.label "inner_catch", .null, .label "tried"],
    .leave, .jump "done",
    .label "inner_catch",
    .leave, .leave, .leave, .of .ret [],
    .label "tried",
    .jump "done",
    .label "outer_finally",
    .of .endFinally [],
    .label "done",
    .of .ret []]

private def partedOut : LabelledCode where
  statements :=
    [.of .enterTry [.null, .label "outer_finally", .label "done"],
      .of .enterTry [.label "inner_catch", .null, .label "tried"],
      .leave, .leave, .jump "done",
      .label "inner_catch",
      .leave, .leave, .leave, .of .ret [],
      .label "tried",
      .leave, .jump "done",
      .label "outer_finally",
      .of .endFinally [],
      .label "done",
      .of .ret []]
  labels := [("inner_catch", 5), ("tried", 10), ("outer_finally", 13), ("done", 15)]

/-- One jump lacks one of its two leaves and one has none, the return has one too many. -/
theorem insertLeaves_partedOut :
    insertLeaves partedCode = .ok partedOut ∧ insertLeaves partedOut.statements = .ok partedOut := by
  have hout : insertLeaves partedCode = .ok partedOut := rfl
  exact ⟨hout, insertLeaves_of_inserted hout⟩

end MethodCompiler
