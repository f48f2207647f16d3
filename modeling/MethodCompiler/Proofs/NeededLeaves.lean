import MethodCompiler.Proofs.LeaveScan

/-!
# Leaves where they are needed

Finished code tells by itself which leaves it needs: its scan has the open regions of each transfer, its
labels tell where jumps go, and the exit chain of a transfer follows from both. Inserted leaves are just
these. Each of them was counted while the labels behind it had still to move, and moving labels without
changing their order changes no exit chain.
-/

namespace MethodCompiler

variable {code : List Statement} {need : Nat → Nat} {labels : LabelTable} {s : Statement}
  {regions : List Region} {stack : RegionStack} {chain : List RegionId} {exit : Exit} {r : Region}
  {i j n : Nat}

/-! ### Code with leaves -/

private theorem filter_padded (h : ∀ s ∈ code, s.op ≠ .leave) :
    (padded need code).filter (·.op != .leave) = code := by
  induction code generalizing need with
  | nil => rfl
  | cons s rest ih =>
    obtain ⟨hs, hrest⟩ := List.forall_mem_cons.mp h
    rw [padded, List.filter_append, List.filter_replicate_of_neg (by decide), List.nil_append,
      List.filter_cons_of_pos (by simpa using hs), ih hrest]

/-! ### Labels -/

namespace LabelTable

/-- The label of the first statement comes first. -/
theorem entriesFrom_cons (start : Nat) (s : Statement) (rest : List Statement) :
    entriesFrom start (s :: rest) =
      (s.label?.map (·, start)).toList ++ entriesFrom (start + 1) rest := by
  rw [entriesFrom, List.zipIdx_cons]
  cases hl : s.label? with
  | none =>
    rw [List.filterMap_cons_none (by simp only [hl, Option.map_none])]
    rfl
  | some l =>
    rw [List.filterMap_cons_some (b := (l, start)) (by simp only [hl, Option.map_some])]
    rfl

private theorem entriesFrom_leaves (start n : Nat) (rest : List Statement) :
    entriesFrom start (List.replicate n Statement.leave ++ rest) = entriesFrom (start + n) rest := by
  induction n generalizing start with
  | zero => rfl
  | succ n ih =>
    rw [List.replicate_succ, List.cons_append, entriesFrom_cons, ih,
      show start + 1 + n = start + (n + 1) by omega]
    rfl

/-- The labels of code with leaves stand where the leaves have moved them. -/
private theorem entriesFrom_padded (start first : Nat) :
    entriesFrom start (padded need code) = (entriesFrom first code).map fun e ↦
      (e.1, start + (paddedStart need (e.2 - first) + need (e.2 - first))) := by
  induction code generalizing need start first with
  | nil => rfl
  | cons s rest ih =>
    rw [padded, entriesFrom_leaves, entriesFrom_cons, entriesFrom_cons, List.map_append,
      ih (start + need 0 + 1) (first + 1)]
    congr 1
    · cases s.label? with
      | none => rfl
      | some l => simp [paddedStart]
    · refine List.map_congr_left ?_
      rintro ⟨l, j⟩ he
      have hle : first + 1 ≤ j := (mem_entriesFrom.mp he).1
      simp only [show j - first = j - (first + 1) + 1 by omega, paddedStart_succ, Prod.mk.injEq,
        true_and]
      omega

/-- The table of the code with leaves is that of the code, with its positions moved. -/
theorem build_padded (h : build code = .ok labels) :
    build (padded need code) = .ok (labels.spread need code.length) := by
  obtain ⟨hnodup, rfl⟩ := build_eq_ok.mp h
  refine build_eq_ok.mpr ⟨by rwa [labelsOf_padded], ?_⟩
  rw [entriesFrom_padded 0 0, spread]
  refine List.map_congr_left ?_
  rintro ⟨l, j⟩ he
  obtain ⟨-, t, ht, -⟩ := mem_entriesFrom.mp he
  have hj : j < code.length := (List.getElem?_eq_some_iff.mp ht).1
  simp only [spot, if_pos hj, Nat.zero_add, Nat.sub_zero]

private theorem resolve_spread (need : Nat → Nat) (i : Nat) (labels : LabelTable) (l : String) :
    (labels.spread need i).resolve l = (labels.resolve l).map (spot need i) := by
  rw [resolve, get?_spread, resolve]
  cases labels.get? l <;> rfl

end LabelTable

/-! ### Exit chains of moved code -/

/-- The transfer once the statement at each position has moved to another place. -/
def Exit.move (place : Nat → Nat) : Exit → Exit
  | .ret => .ret
  | .throw => .throw
  | .jump target => .jump (place target)

private theorem Exit.of?_spread (need : Nat → Nat) (i : Nat) (labels : LabelTable) (s : Statement) :
    of? s (labels.spread need i) = (of? s labels).map (Option.map (move (spot need i))) := by
  unfold of?
  split
  case h_4 =>
    cases s.target? with
    | none => rfl
    | some l =>
      simp only [LabelTable.resolve_spread]
      cases labels.resolve l <;> rfl
  all_goals rfl

/-- A transfer whose target is known goes to the same statement while more leaves are inserted. -/
private theorem Exit.exists_of?_spread {exit : Option Exit} (h : of? s (labels.spread need i) = .ok exit) :
    ∃ unmoved : Option Exit, exit = unmoved.map (move (spot need i)) ∧
      ∀ n, of? s (labels.spread need n) = .ok (unmoved.map (move (spot need n))) := by
  rw [of?_spread] at h
  cases hof : of? s labels with
  | error e =>
    rw [hof] at h
    cases h
  | ok unmoved =>
    rw [hof] at h
    refine ⟨unmoved, (Except.ok.inj h).symm, fun n ↦ ?_⟩
    rw [of?_spread, hof]
    rfl

/-- A position before which a region has opened stays on its side of the start of the region. -/
private theorem lt_spot_iff (need : Nat → Nat) {first : Nat} (hfirst : first < i) (hin : i ≤ n) (j : Nat) :
    paddedStart need first < spot need n j ↔ paddedStart need first < spot need i j := by
  by_cases hj : j < i
  · rw [spot, spot, if_pos hj, if_pos (Nat.lt_of_lt_of_le hj hin)]
  · have hspot : spot need i first < spot need i j := spot_lt_spot.mpr (by omega)
    have hspot' : spot need n first < spot need n j := spot_lt_spot.mpr (by omega)
    rw [spot, if_pos (by omega)] at hspot hspot'
    omega

/-- So what lies in a part of the region does not change. -/
private theorem Region.holds_spread {first : Nat} (hstart : r.start = paddedStart need first)
    (hfirst : first < i) (hin : i ≤ n) (phase : Phase) (target : Nat) :
    r.holds phase (spot need n target) (labels.spread need n) =
      r.holds phase (spot need i target) (labels.spread need i) := by
  have hlt (j : Nat) := lt_spot_iff need hfirst hin j
  simp only [Region.holds, LabelTable.resolve_spread, hstart]
  cases labels.resolve r.endLabel with
  | error e => rfl
  | ok stop =>
    cases r.finallyLabel with
    | none => simp [Except.map, bind, Except.bind, spot_lt_spot, hlt]
    | some l =>
      cases hl : labels.resolve l with
      | error e => simp [hl, Except.map, bind, Except.bind]
      | ok cleanup =>
        cases phase <;> simp [hl, Except.map, bind, Except.bind, spot_lt_spot, hlt]

/-- An exit chain that was computed while the first `i` statements had their leaves is that of the code
with more leaves. -/
private theorem exitChain_spread (hstart : ∀ x ∈ stack, ∀ r, regions[x.1]? = some r →
      ∃ first < i, r.start = paddedStart need first) (hin : i ≤ n) {position position' : Nat}
    (h : exitChain regions (exit.move (spot need i)) (labels.spread need i) position stack = .ok chain) :
    exitChain regions (exit.move (spot need n)) (labels.spread need n) position' stack = .ok chain := by
  cases exit with
  | ret => rwa [Exit.move, exitChain_ret] at h ⊢
  | throw => rwa [Exit.move, exitChain_throw] at h ⊢
  | jump target =>
    rw [Exit.move] at h ⊢
    induction stack generalizing chain with
    | nil => exact h
    | cons x outer ih =>
      obtain ⟨id, phase⟩ := x
      obtain ⟨hx, houter⟩ := List.forall_mem_cons.mp hstart
      cases hr : regions[id]? with
      | none => simpa only [exitChain, hr, pure_bind, if_true] using h
      | some r =>
        obtain ⟨first, hfirst, hstart⟩ := hx r hr
        simp only [exitChain, hr, Region.holds_spread hstart hfirst hin] at h ⊢
        obtain ⟨inside, hheld, h⟩ := bind_eq_ok.mp h
        refine bind_eq_ok.mpr ⟨inside, hheld, ?_⟩
        split at h
        · next hinside => rwa [if_pos hinside]
        · next hout =>
          rw [if_neg hout]
          split at h
          · cases h
          · next hphase =>
            rw [if_neg hphase]
            obtain ⟨rest, hrest, h⟩ := bind_eq_ok.mp h
            exact bind_eq_ok.mpr ⟨rest, ih houter hrest, h⟩

/-- So a statement needs as many leaves as when it was reached. -/
theorem leavesNeeded_spread (hstart : ∀ x ∈ stack, ∀ r, regions[x.1]? = some r →
      ∃ first < i, r.start = paddedStart need first) (hin : i ≤ n) {position position' k : Nat}
    (h : leavesNeeded regions stack (labels.spread need i) s position = .ok k) :
    leavesNeeded regions stack (labels.spread need n) s position' = .ok k := by
  unfold leavesNeeded at h ⊢
  split at h
  · next hempty => rwa [if_pos hempty]
  · next hempty =>
    rw [if_neg hempty]
    split at h
    · next hcond =>
      rw [if_pos hcond]
      cases hl : s.target? with
      | none => simpa only [hl] using h
      | some l =>
        simp only [hl] at h ⊢
        obtain ⟨target, htarget, hrest⟩ := bind_eq_ok.mp h
        obtain ⟨chain, hchain, hstays⟩ := bind_eq_ok.mp hrest
        rw [LabelTable.resolve_spread] at htarget ⊢
        cases hresolve : labels.resolve l with
        | error e =>
          rw [hresolve] at htarget
          cases htarget
        | ok unmoved =>
          rw [hresolve] at htarget
          obtain rfl := Except.ok.inj htarget
          have hmoved : exitChain regions ((Exit.jump unmoved).move (spot need i))
              (labels.spread need i) position stack = .ok chain := hchain
          refine bind_eq_ok.mpr ⟨_, rfl, bind_eq_ok.mpr
            ⟨chain, exitChain_spread hstart hin hmoved, ?_⟩⟩
          split at hstays
          · next hnil => rwa [if_pos hnil]
          · cases hstays
    · next hcond =>
      rw [if_neg hcond]
      obtain ⟨exit, hof, h⟩ := bind_eq_ok.mp h
      obtain ⟨unmoved, rfl, hmoved⟩ := Exit.exists_of?_spread hof
      refine bind_eq_ok.mpr ⟨_, hmoved n, ?_⟩
      cases unmoved with
      | none => exact h
      | some exit =>
        obtain ⟨chain, hchain, h⟩ := bind_eq_ok.mp h
        exact bind_eq_ok.mpr ⟨chain, exitChain_spread hstart hin hchain, h⟩

/-- The regions that are open at a statement have opened before it. -/
theorem Walk.Pads.exists_start {w : Walk code} (h : w.Pads labels need) (hi : i < code.length) :
    ∀ x ∈ w.stack i, ∀ r, w.allRegions[x.1]? = some r →
      ∃ first < i, r.start = paddedStart need first := by
  intro x hx r hr
  obtain ⟨more, hmore⟩ := w.regions_le (Nat.le_of_lt hi) (Nat.le_refl _)
  rw [Walk.allRegions, ← hmore, List.getElem?_append_left ((w.linked hi).lt_length hx)] at hr
  obtain ⟨first, hfirst, hstart, -⟩ := w.exists_opening (Nat.le_of_lt hi) hr
  exact ⟨first, hfirst, hstart.trans (h.position first)⟩

/-! ### The leaves of finished code -/

/-- The regions that the statement at a position leaves, by the regions and labels of its code. -/
def RegionMap.exitsAt (map : RegionMap) (labels : LabelTable) (position : Nat) (s : Statement) :
    Except Error (List RegionId) := do
  match ← Exit.of? s labels with
  | none => return []
  | some exit =>
    exitChain map.regions exit labels position (stackAt map.regions (map.stateAt position))

/-- Code has the leaves that its transfers need and no others. -/
structure LabelledCode.LeavesNeeded (out : LabelledCode) (map : RegionMap) : Prop where
  /-- Directly before a transfer in an open region stands a leave for each region that it leaves. -/
  transfer : ∀ {position s}, out.statements[position]? = some s → s.op.isUnconditionalExit = true →
    (map.stateAt position).isSome → ∃ chain, map.exitsAt out.labels position s = .ok chain ∧
      leavesBefore (out.statements.take position).reverse = chain.length
  /-- Directly before any other statement stands none. -/
  other : ∀ {position s}, out.statements[position]? = some s → s.op ≠ .leave →
    s.op.isUnconditionalExit = false ∨ map.stateAt position = none →
      leavesBefore (out.statements.take position).reverse = 0
  /-- None stands at the end. -/
  last : leavesBefore out.statements.reverse = 0

namespace Walk.Leaving

variable {w : Walk code} (h : w.Leaving labels need) {map : RegionMap}
  (hregions : map.regions = w.allRegions)
  (hstates : ∀ {i k}, i < code.length → k ≤ need i →
    map.stateAt (paddedStart need i + k) = (w.stack i).head?)

include h hregions hstates

/-- Recomputed on the code with all leaves, the exit chain of a transfer has as many regions as the
transfer has leaves. -/
private theorem exists_exitsAt (hs : code[i]? = some s) (hexit : s.op.isUnconditionalExit = true)
    (hopen : (w.stack i).head?.isSome) :
    ∃ chain, map.exitsAt (labels.spread need code.length) (paddedStart need i + need i) s =
      .ok chain ∧ need i = chain.length := by
  have hi := (List.getElem?_eq_some_iff.mp hs).1
  have hstack : stackAt map.regions (map.stateAt (paddedStart need i + need i)) = w.stack i := by
    rw [hregions, hstates hi (Nat.le_refl _), (w.linked_allRegions hi).stackAt]
  rcases cases_of_leavesNeeded (h.needed_allRegions hs) with
    ⟨hnot, -⟩ | ⟨exit, chain, hof, hchain, hlength⟩
  · rcases hnot with hempty | hnot
    · rw [hempty] at hopen
      cases hopen
    · rw [hexit] at hnot
      cases hnot
  · obtain ⟨unmoved, rfl, hmoved⟩ := Exit.exists_of?_spread hof
    refine ⟨chain, bind_eq_ok.mpr ⟨_, hmoved code.length, ?_⟩, hlength.symm⟩
    cases unmoved with
    | none => exact hchain
    | some exit =>
      simp only [Option.map_some]
      rw [hstack, hregions]
      exact exitChain_spread (h.pads.exists_start hi) (Nat.le_of_lt hi) hchain

private theorem leavesNeeded (hcode : ∀ s ∈ code, s.op ≠ .leave) :
    LabelledCode.LeavesNeeded ⟨padded need code, labels.spread need code.length⟩ map where
  transfer {position s} hs hexit hopen := by
    have hop : s.op ≠ .leave := by
      intro hop
      rw [hop] at hexit
      cases hexit
    obtain ⟨i, hget, rfl⟩ := exists_of_getElem?_padded hs hop
    have hi := (List.getElem?_eq_some_iff.mp hget).1
    rw [hstates hi (Nat.le_refl _)] at hopen
    rw [(leaves_around hcode hi (Nat.le_refl _)).1]
    exact h.exists_exitsAt hregions hstates hget hexit hopen
  other {position s} hs hop hnot := by
    obtain ⟨i, hget, rfl⟩ := exists_of_getElem?_padded hs hop
    have hi := (List.getElem?_eq_some_iff.mp hget).1
    rw [(leaves_around hcode hi (Nat.le_refl _)).1]
    rcases hnot with hnot | hnone
    · exact h.need_eq_zero hget hnot
    · rw [hstates hi (Nat.le_refl _), List.head?_eq_none_iff] at hnone
      have hneeded := h.needed_allRegions hget
      rw [hnone] at hneeded
      exact (Except.ok.inj hneeded).symm
  last := leavesBefore_padded need hcode

end Walk.Leaving

/-- Inserting leaves into code without leaves puts in those that the transfers of the result need, and
nothing else. The labels that come back are those of the result. -/
theorem leaves_inserted_where_needed {out : LabelledCode} (hcode : ∀ s ∈ code, s.op ≠ .leave)
    (h : insertLeaves code = .ok out) :
    out.statements.filter (·.op != .leave) = code ∧
      LabelTable.build out.statements = .ok out.labels ∧
      ∃ map, RegionMap.scan out.statements = .ok map ∧ out.LeavesNeeded map := by
  obtain ⟨labels, w, need, hlabels, hleaving, rfl⟩ := exists_leaving h hcode
  obtain ⟨map, hscan, hregions, hstates⟩ := hleaving.exists_scan
  exact ⟨filter_padded hcode, LabelTable.build_padded hlabels, map, hscan,
    hleaving.leavesNeeded hregions hstates hcode⟩

/-- `try { again: try { jump done } catch { jump again } jump done } finally {} done: return` -/
private def retryCode : List Statement :=
  [.of .enterTry [.null, .label "outer_finally", .label "done"],
    .label "again",
    .of .enterTry [.label "inner_catch", .null, .label "tried"],
    .jump "done",
    .label "inner_catch",
    .jump "again",
    .label "tried",
    .jump "done",
    .label "outer_finally",
    .of .endFinally [],
    .label "done",
    .of .ret []]

private def retryOut : LabelledCode where
  statements :=
    [.of .enterTry [.null, .label "outer_finally", .label "done"],
      .label "again",
      .of .enterTry [.label "inner_catch", .null, .label "tried"],
      .leave, .leave, .jump "done",
      .label "inner_catch",
      .leave, .jump "again",
      .label "tried",
      .leave, .jump "done",
      .label "outer_finally",
      .of .endFinally [],
      .label "done",
      .of .ret []]
  labels := [("again", 1), ("inner_catch", 6), ("tried", 9), ("outer_finally", 12), ("done", 14)]

/-- The jump out of both regions gets two leaves, the jump back and the one behind the handler one
each. -/
theorem retry_leaves_where_needed :
    insertLeaves retryCode = .ok retryOut ∧
      retryOut.statements.filter (·.op != .leave) = retryCode ∧
      LabelTable.build retryOut.statements = .ok retryOut.labels ∧
      ∃ map, RegionMap.scan retryOut.statements = .ok map ∧ retryOut.LeavesNeeded map := by
  have hcode : ∀ s ∈ retryCode, s.op ≠ .leave := by decide
  have hout : insertLeaves retryCode = .ok retryOut := rfl
  exact ⟨hout, leaves_inserted_where_needed hcode hout⟩

end MethodCompiler
