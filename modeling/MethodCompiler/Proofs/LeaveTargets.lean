import Mathlib.Data.List.TakeWhile
import MethodCompiler.Proofs.LeaveScan
import MethodCompiler.Proofs.RegionSnapshots
import MethodCompiler.Proofs.RegionSpans

/-!
# The region that a leave exits

A flow graph finds the region of a leave in the exit chain of the transfer behind it, or, where that gives
none, among the regions that are open at the leave. A stack of the open regions that are not in their
cleanup gives one answer for both: leaves that follow each other take off its regions one by one.
-/

namespace MethodCompiler

variable {code before run behind : List Statement} {w : Walk code} {map : RegionMap} {s : Statement}
  {regions : List Region} {labels : LabelTable} {stack : RegionStack} {chain : List RegionId}
  {exit : Exit} {src : FlowGraph.Source} {region : RegionId} {i k position : Nat}

/-! ### Exit chains -/

/-- A jump goes on through the regions around one that it exits, and such a region is not in its cleanup. -/
private theorem exitChain_jump_cons {id : RegionId} {phase : Phase} {target : Nat}
    (h : exitChain regions (.jump target) labels position ((id, phase) :: stack) = .ok chain) :
    chain = [] ∨ phase ≠ .inFinally ∧
      ∃ rest, exitChain regions (.jump target) labels position stack = .ok rest ∧ chain = id :: rest := by
  have hsplit {inside : Bool} (h : (if inside then pure []
      else if phase == .inFinally then throw (.regionCrossingBranch .jump position)
      else do
        let rest ← exitChain regions (.jump target) labels position stack
        return id :: rest : Except Error (List RegionId)) = .ok chain) : chain = [] ∨ phase ≠ .inFinally ∧
      ∃ rest, exitChain regions (.jump target) labels position stack = .ok rest ∧ chain = id :: rest := by
    split at h
    · exact .inl (pure_eq_ok.mp h).symm
    · split at h
      · cases h
      · next hphase =>
        obtain ⟨rest, hrest, h⟩ := bind_eq_ok.mp h
        exact .inr ⟨fun heq ↦ hphase (beq_iff_eq.mpr heq), rest, hrest, (pure_eq_ok.mp h).symm⟩
  rw [exitChain] at h
  split at h
  · obtain ⟨inside, -, h⟩ := bind_eq_ok.mp h
    exact hsplit h
  · exact @hsplit true h

/-- A transfer exits regions from the innermost one on, and passes by those in their cleanup. -/
private theorem exitChain_prefix (h : exitChain regions exit labels position stack = .ok chain) :
    chain <+: live stack := by
  cases exit with
  | ret =>
    rw [exitChain_ret] at h
    cases h
    exact List.prefix_rfl
  | throw =>
    rw [exitChain_throw] at h
    cases h
    exact ((List.takeWhile_prefix _).filter _).map _
  | jump target =>
    induction stack generalizing chain with
    | nil =>
      cases h
      exact List.prefix_rfl
    | cons x outer ih =>
      obtain ⟨id, phase⟩ := x
      obtain rfl | ⟨hphase, rest, hrest, rfl⟩ := exitChain_jump_cons h
      · exact List.nil_prefix
      · rw [live_cons, if_neg (by simpa using hphase)]
        exact List.cons_prefix_cons.mpr ⟨rfl, ih hrest⟩

/-! ### Runs of leaves -/

/-- The leaves directly before a position, where no leave stands before them. -/
private theorem leavesBefore_run (hbefore : ∀ u ∈ before.getLast?, u.op ≠ .leave)
    (hrun : ∀ u ∈ run, u.op = .leave) :
    leavesBefore (before ++ run).reverse = run.length := by
  have hleaves : ∀ u ∈ run.reverse, (u.op == .leave) = true := fun u hu ↦
    beq_iff_eq.mpr (hrun u (List.mem_reverse.mp hu))
  have hnone : before.reverse.takeWhile (·.op == .leave) = [] := by
    cases hlast : before.reverse with
    | nil => rfl
    | cons u rest =>
      have hu : before.getLast? = some u := by rw [← List.head?_reverse, hlast, List.head?_cons]
      exact List.takeWhile_cons_of_neg (by simpa using hbefore u hu)
  rw [leavesBefore, List.reverse_append, List.takeWhile_append_of_pos hleaves, hnone, List.append_nil,
    List.length_reverse]

/-- The statements from a position on, as far as they are counted. -/
private theorem leaves_of_leavesBefore (code : List Statement) (i : Nat) :
    ∀ j, i ≤ j → j < i + leavesBefore (code.drop i) → ∃ s, code[j]? = some s ∧ s.op = .leave := by
  intro j hlo hhi
  obtain ⟨n, rfl⟩ := Nat.exists_eq_add_of_le hlo
  have hn : n < ((code.drop i).takeWhile (·.op == .leave)).length := Nat.lt_of_add_lt_add_left hhi
  refine ⟨_, ?_, beq_iff_eq.mp (List.mem_takeWhile_imp (List.getElem_mem hn) :)⟩
  rw [← List.getElem?_drop]
  exact List.prefix_iff_getElem?.mp (List.takeWhile_prefix _) n hn

namespace Walk

/-- Leaves neither open nor close regions. -/
private theorem tracker_of_leaves (w : Walk code) (h : ∀ j, i ≤ j → j < i + k → ∃ s, code[j]? = some s ∧
    s.op = .leave) : w.tracker (i + k) = w.tracker i := by
  induction k with
  | zero => rfl
  | succ n ih =>
    obtain ⟨s, hs, hop⟩ := h (i + n) (Nat.le_add_right i n) (Nat.lt_succ_self _)
    have hnext := (w.of_plain hs (by rw [hop]; decide) (by rw [hop]; decide) (by rw [hop]; decide)).2
    exact hnext.trans (ih fun j hlo hhi ↦ h j hlo (Nat.lt_succ_of_lt hhi))

/-- A walk along a scan has the tracker of the statements before. -/
private theorem Scans.walk_take (h : w.Scans map) (hi : i ≤ code.length) :
    RegionTracker.walk {} (code.take i).zipIdx = .ok (w.tracker i) := by
  induction i with
  | zero => rw [w.start, List.take_zero, List.zipIdx_nil, RegionTracker.walk]
  | succ i ih =>
    have hs := List.getElem?_eq_getElem hi
    have hstep := RegionTracker.step_of_steps (w.steps hs)
    rw [h.position] at hstep
    rw [List.take_succ_eq_append_getElem hi, List.zipIdx_append, RegionTracker.walk_append,
      ih (Nat.le_of_succ_le hi), List.length_take_of_le (Nat.le_of_succ_le hi), Nat.zero_add]
    show RegionTracker.walk (w.tracker i) [(code[i], i)] = _
    rw [RegionTracker.walk, hstep]
    rfl

end Walk

/-! ### Targets -/

/-- What the transfer behind a run of leaves exits, a stack at any of these leaves has on top. -/
private theorem exitChain_behind (hscans : w.Scans map) (hrun : ∀ j, i ≤ j → j < i + k →
      ∃ s, code[j]? = some s ∧ s.op = .leave) {u : Statement} (hu : code[i + k]? = some u)
    (hexit : Exit.of? u labels = .ok (some exit))
    (h : exitChain map.regions exit labels (i + k) (map.openAt (i + k)) = .ok chain) :
    chain <+: live (w.tracker i).stack := by
  have hop : u.op.isUnconditionalExit = true := by
    by_contra hno
    rw [Exit.of?_of_not_exit labels (Bool.eq_false_iff.mpr hno)] at hexit
    cases hexit
  have hstack := (w.of_plain hu (by rintro h; rw [h] at hop; cases hop)
    (by rintro h; rw [h] at hop; cases hop) (by rintro h; rw [h] at hop; cases hop)).1
  rw [hscans.openAt_eq (List.getElem?_eq_some_iff.mp hu).1, hstack, w.tracker_of_leaves hrun] at h
  exact exitChain_prefix h

/-- The region of a leave comes from the exit chain of the transfer behind its run, if that goes so far, and
else from the regions that are open at the leave. -/
private theorem regionLeftBy_cases (h : src.regionLeftBy i = .ok region) :
    ∃ chain, (chain = [] ∨ ∃ u exit,
        src.code[i + leavesBefore (src.code.drop i)]? = some u ∧
        Exit.of? u src.labels = .ok (some exit) ∧
        exitChain src.regions.regions exit src.labels (i + leavesBefore (src.code.drop i))
          (src.regions.openAt (i + leavesBefore (src.code.drop i))) = .ok chain) ∧
      (chain[leavesBefore (src.code.take i).reverse]? = some region ∨
        (live (src.regions.openAt i))[leavesBefore (src.code.take i).reverse]? = some region) := by
  unfold FlowGraph.Source.regionLeftBy at h
  extract_lets k run transfer stack pick reached at h
  -- the choice between the chain and the open regions is the same behind every kind of transfer
  have hpick {chain : List RegionId} (h : pick chain = .ok region) :
      chain[k]? = some region ∨ (live (src.regions.openAt i))[k]? = some region := by
    unfold pick at h
    split at h
    · next hk => exact .inl (hk.trans (congrArg some (pure_eq_ok.mp h)))
    · split at h
      · next found phase hk =>
        have hlive : (live stack)[k]? = some found := by
          rw [live, List.getElem?_map, hk]
          rfl
        exact .inr (hlive.trans (congrArg some (pure_eq_ok.mp h)))
      · cases h
  split at h
  · exact ⟨[], .inl rfl, hpick h⟩
  · next u hu =>
    obtain ⟨exit?, hexit, h⟩ := bind_eq_ok.mp h
    cases exit? with
    | none => exact ⟨[], .inl rfl, hpick h⟩
    | some exit =>
      obtain ⟨chain, hchain, h⟩ := bind_eq_ok.mp h
      exact ⟨chain, .inr ⟨u, exit, hu, hexit, hchain⟩, hpick h⟩

/-- In well-nested code, the graph takes a leave that directly follows `k` others to exit the open region
number `k`, counted from the innermost one and past those in their cleanup. -/
theorem regionLeftBy_eq_live (hcode : src.code = before ++ run ++ s :: behind)
    (hscan : RegionMap.scan src.code = .ok src.regions) (hbefore : ∀ u ∈ before.getLast?, u.op ≠ .leave)
    (hrun : ∀ u ∈ run, u.op = .leave) (hs : s.op = .leave)
    (h : src.regionLeftBy (before ++ run).length = .ok region) :
    ∃ t, RegionTracker.walk {} (before ++ run).zipIdx = .ok t ∧
      (live t.stack)[run.length]? = some region := by
  obtain ⟨w, hscans⟩ := exists_scans hscan
  have htake : src.code.take (before ++ run).length = before ++ run := by rw [hcode, List.take_left]
  have hat : src.code[(before ++ run).length]? = some s := by simp [hcode]
  have hlt := (List.getElem?_eq_some_iff.mp hat).1
  have hwalk := hscans.walk_take (Nat.le_of_lt hlt)
  have hopen : src.regions.openAt (before ++ run).length = (w.tracker (before ++ run).length).stack :=
    (hscans.openAt_eq hlt).trans
      (w.of_plain hat (by rw [hs]; decide) (by rw [hs]; decide) (by rw [hs]; decide)).1
  obtain ⟨chain, hchain, hregion⟩ := regionLeftBy_cases h
  rw [htake] at hwalk
  rw [htake, leavesBefore_run hbefore hrun, hopen] at hregion
  refine ⟨_, hwalk, hregion.elim (fun hk ↦ ?_) id⟩
  obtain rfl | ⟨u, exit, hu, hexit, hchain⟩ := hchain
  · cases hk
  · have hchain := exitChain_behind hscans (leaves_of_leavesBefore _ _) hu hexit hchain
    obtain ⟨hlt, rfl⟩ := List.getElem?_eq_some_iff.mp hk
    exact List.prefix_iff_getElem?.mp hchain _ hlt

/-- `try { try {} finally { try { leave leave return; leave leave throw } catch {} } } catch {}` -/
private def leavingCode : List Statement :=
  [.of .enterTry [.label "outer_catch", .null, .label "outer_end"],
    .of .enterTry [.null, .label "cleanup", .label "cleaned"],
    .label "cleanup",
    .of .enterTry [.label "inner_catch", .null, .label "inner_end"],
    .leave, .leave, .of .ret [],
    .leave, .leave, .of .throw [.null],
    .label "inner_catch",
    .label "inner_end",
    .of .endFinally [],
    .label "cleaned",
    .label "outer_catch",
    .label "outer_end"]

private def leavingRegions : RegionMap where
  states := [none, some (0, .inTry), some (1, .inFinally), some (1, .inFinally)] ++
    List.replicate 6 (some (2, .inTry)) ++ [some (2, .inCatch), some (1, .inFinally), some (1, .inFinally),
    some (0, .inTry), some (0, .inCatch), none]
  regions := [⟨[], 0, some "outer_catch", none, "outer_end"⟩,
    ⟨[(0, .inTry)], 1, none, some "cleanup", "cleaned"⟩,
    ⟨[(1, .inFinally), (0, .inTry)], 3, some "inner_catch", none, "inner_end"⟩]

private def leavingSource : FlowGraph.Source where
  code := leavingCode
  constants := []
  labels := [("cleanup", 2), ("inner_catch", 10), ("inner_end", 11), ("cleaned", 13), ("outer_catch", 14),
    ("outer_end", 15)]
  regions := leavingRegions
  blocks := Block.split leavingCode

/-- The second leave before the `return`, whose exit chain has both regions, and the second leave before the
`throw`, which the inner region catches, both pass by the cleanup and exit the outer region. -/
theorem leaving_regionLeftBy_eq_live :
    RegionMap.scan leavingCode = .ok leavingRegions ∧
      (∃ t, RegionTracker.walk {} (leavingCode.take 5).zipIdx = .ok t ∧ (live t.stack)[1]? = some 0) ∧
      ∃ t, RegionTracker.walk {} (leavingCode.take 8).zipIdx = .ok t ∧ (live t.stack)[1]? = some 0 := by
  have hscan : RegionMap.scan leavingCode = .ok leavingRegions := by decide +kernel
  have hleave : ∀ u ∈ [Statement.leave], u.op = .leave := by decide
  refine ⟨hscan, ?_, ?_⟩
  · have hleft : leavingSource.regionLeftBy 5 = .ok 0 := rfl
    have hbefore : ∀ u ∈ (leavingCode.take 4).getLast?, u.op ≠ .leave := by decide
    exact @regionLeftBy_eq_live (leavingCode.take 4) [.leave] (leavingCode.drop 6) .leave leavingSource 0 rfl
      hscan hbefore hleave rfl hleft
  · have hleft : leavingSource.regionLeftBy 8 = .ok 0 := rfl
    have hbefore : ∀ u ∈ (leavingCode.take 7).getLast?, u.op ≠ .leave := by decide
    exact @regionLeftBy_eq_live (leavingCode.take 7) [.leave] (leavingCode.drop 9) .leave leavingSource 0 rfl
      hscan hbefore hleave rfl hleft

end MethodCompiler
