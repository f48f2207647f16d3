import MethodCompiler.Module.Function
import MethodCompiler.Proofs.ExitChains

/-!
# The regions of code with leaves

A scan of code with leaves finds the regions of the walk that inserted them, and each statement and its
leaves in the regions that the walk found open there.
-/

namespace MethodCompiler

variable {code : List Statement} {w : Walk code} {sealed : Bool} {pool : List Value}
  {t t' : RegionTracker} {s : Statement} {stack : RegionStack} {labels : LabelTable}
  {need : Nat → Nat} {chain : List RegionId} {position i k : Nat}

/-! ### Steps and scans -/

/-- A tracker makes the steps that are described. -/
theorem RegionTracker.step_of_steps (h : t.Steps s position stack t') :
    t.step s position = .ok (stack.head?, t') := by
  cases h with
  | plain hl hopen hclose =>
    simp only [step, hl, pure_bind]
    rfl
  | @crosses l _ hl hcross =>
    rw [step, hl, Statement.op_of_label? hl]
    simp only [hcross]
    rfl
  | opens hop hopen =>
    rw [step, Statement.label?_of_ne (by rw [hop]; decide), hop]
    simp only [pure_bind, hopen]
    rfl
  | closes hop hstack =>
    rw [step, Statement.label?_of_ne (by rw [hop]; decide), hop]
    simp only [pure_bind, hstack]
    rfl

/-- Only a `try` looks at its position. -/
private theorem RegionTracker.Steps.moved (h : t.Steps s position stack t') {position' : Nat}
    (hopen : s.op = .enterTry → position' = position) : t.Steps s position' stack t' := by
  cases h with
  | plain hl hopen hclose => exact .plain hl hopen hclose
  | crosses hl hcross => exact .crosses hl hcross
  | opens hop hregion =>
    rw [hopen hop]
    exact .opens hop hregion
  | closes hop hstack => exact .closes hop hstack

private theorem RegionMap.scanFrom_leaves (t : RegionTracker) (start n : Nat) (rest : List Statement) :
    scanFrom t start (List.replicate n Statement.leave ++ rest) = (do
      let tail ← scanFrom t (start + n) rest
      return ⟨List.replicate n t.stack.head? ++ tail.states, tail.regions⟩) := by
  induction n generalizing start with
  | zero => exact (bind_pure _).symm
  | succ n ih =>
    have hstep : t.step .leave start = .ok (t.stack.head?, t) :=
      RegionTracker.step_of_steps (.plain rfl nofun nofun)
    rw [List.replicate_succ, List.cons_append, scanFrom, hstep]
    simp only [bind, Except.bind, ih, show start + (n + 1) = start + 1 + n by omega]
    cases scanFrom t (start + 1 + n) rest <;> rfl

/-- A scan takes the steps of a walk, and those over the leaves. -/
theorem exists_scanFrom_padded (need : Nat → Nat) (tracker : Nat → RegionTracker)
    (stack : Nat → RegionStack) (start : Nat) (hsteps : ∀ {i s}, code[i]? = some s →
      (tracker i).Steps s (start + (paddedStart need i + need i)) (stack i) (tracker (i + 1)))
    (hend : (tracker code.length).stack = []) :
    ∃ map, RegionMap.scanFrom (tracker 0) start (padded need code) = .ok map ∧
      map.regions = (tracker code.length).regions ∧ ∀ {i k}, i < code.length → k ≤ need i →
        map.states[paddedStart need i + k]? =
          some (if k < need i then (tracker i).stack.head? else (stack i).head?) := by
  induction code generalizing need tracker stack start with
  | nil =>
    refine ⟨⟨[], (tracker 0).regions⟩, ?_, rfl, fun hi ↦ absurd hi (Nat.not_lt_zero _)⟩
    rw [padded, RegionMap.scanFrom, RegionTracker.finish]
    rw [List.length_nil] at hend
    rw [hend]
    rfl
  | cons s rest ih =>
    have hstep := RegionTracker.step_of_steps (hsteps (i := 0) (s := s) rfl)
    rw [paddedStart, Nat.zero_add] at hstep
    obtain ⟨tail, htail, hregions, hstates⟩ := ih (fun i ↦ need (i + 1)) (fun i ↦ tracker (i + 1))
      (fun i ↦ stack (i + 1)) (start + need 0 + 1) (by
        intro i u hu
        have := hsteps (i := i + 1) hu
        rwa [paddedStart_succ, show start + (need 0 + 1 + paddedStart (fun i ↦ need (i + 1)) i +
          need (i + 1)) = start + need 0 + 1 + (paddedStart (fun i ↦ need (i + 1)) i + need (i + 1))
          by omega] at this) hend
    refine ⟨⟨List.replicate (need 0) (tracker 0).stack.head? ++ (stack 0).head? :: tail.states,
      tail.regions⟩, ?_, hregions, ?_⟩
    · rw [padded, RegionMap.scanFrom_leaves, RegionMap.scanFrom, hstep]
      simp only [bind, Except.bind, htail]
      rfl
    · intro i k hi hk
      cases i with
      | zero =>
        rw [paddedStart, Nat.zero_add]
        rcases Nat.lt_or_eq_of_le hk with hlt | rfl
        · rw [if_pos hlt, List.getElem?_append_left (by rwa [List.length_replicate]),
            List.getElem?_replicate_of_lt hlt]
        · rw [if_neg (Nat.lt_irrefl _), List.getElem?_append_right (by simp), List.length_replicate,
            Nat.sub_self, List.getElem?_cons_zero]
      | succ i =>
        rw [paddedStart_succ, List.getElem?_append_right (by rw [List.length_replicate]; omega),
          List.length_replicate, show need 0 + 1 + paddedStart (fun i ↦ need (i + 1)) i + k -
            need 0 = paddedStart (fun i ↦ need (i + 1)) i + k + 1 by omega, List.getElem?_cons_succ]
        exact hstates (Nat.lt_of_succ_lt_succ hi) hk

/-! ### Around a leave -/

/-- The leaves before and behind the leave at a position. -/
theorem leaves_around (hcode : ∀ s ∈ code, s.op ≠ .leave) (hi : i < code.length) (hk : k ≤ need i) :
    leavesBefore ((padded need code).take (paddedStart need i + k)).reverse = k ∧
      (((padded need code).drop (paddedStart need i + k)).takeWhile (·.op == .leave)).length =
        need i - k := by
  have hs := List.getElem?_eq_getElem hi
  have hlength : (code.take i).length = i := List.length_take_of_le (Nat.le_of_lt hi)
  have hstart : (padded need (code.take i)).length = paddedStart need i := by
    rw [length_padded, hlength]
  have hfirst : leavesBefore (padded need (code.take i)).reverse = 0 :=
    leavesBefore_padded need fun s hs ↦ hcode s (List.mem_of_mem_take hs)
  have hne : code[i].op ≠ .leave := hcode _ (List.getElem_mem hi)
  have hsplit : padded need code = padded need (code.take i) ++ (List.replicate (need i) Statement.leave ++
      code[i] :: padded (fun j ↦ need (i + (j + 1))) (code.drop (i + 1))) := by
    conv => lhs; rw [eq_take_append hs, padded_append, hlength, List.singleton_append, padded]
    rfl
  have hleaves (n : Nat) : ∀ s ∈ List.replicate n Statement.leave, (s.op == .leave) = true := by
    intro s hs
    rw [List.eq_of_mem_replicate hs]
    rfl
  generalize padded need (code.take i) = before at hstart hfirst hsplit
  generalize padded (fun j ↦ need (i + (j + 1))) (code.drop (i + 1)) = behind at hsplit
  constructor
  · have htake : (padded need code).take (paddedStart need i + k) =
        before ++ List.replicate k Statement.leave := by
      rw [hsplit, ← hstart, List.take_length_add_append, List.take_append_of_le_length (by simpa),
        List.take_replicate, Nat.min_eq_left hk]
    rw [leavesBefore] at hfirst ⊢
    rw [htake, List.reverse_append, List.reverse_replicate, List.takeWhile_append_of_pos (hleaves _),
      List.length_append, List.length_replicate, hfirst, Nat.add_zero]
  · have hdrop : (padded need code).drop (paddedStart need i + k) =
        List.replicate (need i - k) Statement.leave ++ code[i] :: behind := by
      rw [hsplit, ← hstart, List.drop_length_add_append, List.drop_append_of_le_length (by simpa),
        List.drop_replicate]
    rw [hdrop, List.takeWhile_append_of_pos (hleaves _), List.takeWhile_cons_of_neg (by simpa using hne),
      List.append_nil, List.length_replicate]

/-! ### The walk that inserted the leaves -/

/-- What a statement needs depends on no region that opens behind it. -/
theorem Walk.leavesNeeded_allRegions (w : Walk code) (hs : code[i]? = some s) :
    leavesNeeded w.allRegions (w.stack i) labels s position =
      leavesNeeded (w.tracker (i + 1)).regions
        (stackAt (w.tracker (i + 1)).regions (w.stack i).head?) labels s position := by
  have hi := (List.getElem?_eq_some_iff.mp hs).1
  have hchain (exit : Exit) : exitChain w.allRegions exit labels position (w.stack i) =
      exitChain (w.tracker (i + 1)).regions exit labels position (w.stack i) :=
    exitChain_congr (fun x hx ↦ (w.getElem?_allRegions hi hx).symm) exit
  rw [((w.linked hi).mono (w.regions_le (Nat.le_succ i) hi)).stackAt, leavesNeeded, leavesNeeded]
  simp only [hchain]

/-- How many leaves a statement needs: none outside of all regions and if it is no transfer, else one for
each region of its exit chain. -/
theorem cases_of_leavesNeeded {regions : List Region} {n : Nat}
    (h : leavesNeeded regions stack labels s position = .ok n) :
    (stack = [] ∨ s.op.isUnconditionalExit = false) ∧ n = 0 ∨
      ∃ exit chain, Exit.of? s labels = .ok exit ∧
        exit.elim (.ok []) (exitChain regions · labels position stack) = .ok chain ∧
        chain.length = n := by
  rw [leavesNeeded] at h
  split at h
  · next hempty =>
    exact .inl ⟨.inl (List.isEmpty_iff.mp hempty), (Except.ok.inj h).symm⟩
  · split at h
    · next hcond =>
      refine .inl ⟨.inr (Opcode.not_exit_of_isConditionalBranch hcond), ?_⟩
      split at h
      · exact (Except.ok.inj h).symm
      · obtain ⟨target, -, h⟩ := bind_eq_ok.mp h
        obtain ⟨chain, -, h⟩ := bind_eq_ok.mp h
        split at h
        · exact (Except.ok.inj h).symm
        · cases h
    · obtain ⟨exit, hexit, h⟩ := bind_eq_ok.mp h
      right
      cases exit with
      | none => exact ⟨none, [], hexit, rfl, Except.ok.inj h⟩
      | some exit =>
        obtain ⟨chain, hchain, h⟩ := bind_eq_ok.mp h
        exact ⟨some exit, chain, hexit, hchain, Except.ok.inj h⟩

/-- A statement that control runs past transfers it nowhere. -/
theorem Exit.of?_of_not_exit (labels : LabelTable) (h : s.op.isUnconditionalExit = false) :
    of? s labels = .ok none := by
  unfold of?
  split
  case h_5 => rfl
  all_goals
    next hop =>
      rw [hop] at h
      cases h

namespace Walk.Pads

variable (h : w.Pads labels need)

include h

/-- No statement has more leaves than it needs, by all regions of the code. -/
theorem bounded_allRegions (hs : code[i]? = some s) : ∃ n, need i ≤ n ∧
    leavesNeeded w.allRegions (w.stack i) (labels.spread need i) s (paddedStart need i) = .ok n := by
  rw [w.leavesNeeded_allRegions hs]
  exact h.bounded hs

/-- Only transfers get leaves. -/
private theorem need_eq_zero (hs : code[i]? = some s) (hexit : s.op.isUnconditionalExit = false) :
    need i = 0 := by
  obtain ⟨n, hle, hneeded⟩ := h.bounded_allRegions hs
  rcases cases_of_leavesNeeded hneeded with ⟨-, hzero⟩ | ⟨exit, chain, hof, hchain, hlength⟩
  · exact Nat.le_zero.mp (hzero ▸ hle)
  · rw [Exit.of?_of_not_exit _ hexit] at hof
    obtain rfl := Except.ok.inj hof
    rw [← hlength, ← Except.ok.inj hchain] at hle
    exact Nat.le_zero.mp hle

/-- In the code with leaves, a `try` has the position that the walk was told. -/
theorem steps_padded (hs : code[i]? = some s) :
    (w.tracker i).Steps s (paddedStart need i + need i) (w.stack i) (w.tracker (i + 1)) := by
  refine (w.steps hs).moved fun hop ↦ ?_
  rw [h.position, h.need_eq_zero hs (by rw [hop]; rfl), Nat.add_zero]

/-- A scan finds each statement, and the leaves before it, in the regions of the walk. -/
theorem exists_scan : ∃ map, RegionMap.scan (padded need code) = .ok map ∧
    map.regions = w.allRegions ∧ ∀ {i k}, i < code.length → k ≤ need i →
      map.stateAt (paddedStart need i + k) = (w.stack i).head? := by
  obtain ⟨map, hscan, hregions, hstates⟩ := exists_scanFrom_padded need w.tracker w.stack 0
    (fun hs ↦ by rw [Nat.zero_add]; exact h.steps_padded hs) h.finished
  rw [w.start] at hscan
  refine ⟨map, hscan, hregions, fun {i k} hi hk ↦ ?_⟩
  rw [RegionMap.stateAt, hstates hi hk]
  split
  · next hlt =>
    -- a statement with leaves is no bound of a region
    have hs := List.getElem?_eq_getElem hi
    have hne {op : Opcode} (hop : op.isUnconditionalExit = false) : code[i].op ≠ op := by
      rintro rfl
      rw [h.need_eq_zero hs hop] at hlt
      cases hlt
    rw [(w.of_plain hs (hne rfl) (hne rfl) (hne rfl)).1]
    rfl
  · rfl

end Walk.Pads

namespace Walk.Leaving

variable (h : w.Leaving labels need)

include h

/-- Each statement has the leaves that it needs, by all regions of the code. -/
theorem needed_allRegions (hs : code[i]? = some s) :
    leavesNeeded w.allRegions (w.stack i) (labels.spread need i) s (paddedStart need i) =
      .ok (need i) := by
  rw [w.leavesNeeded_allRegions hs]
  exact h.needed hs

/-- A statement that control runs past has no leaves. -/
theorem need_eq_zero (hs : code[i]? = some s) (hexit : s.op.isUnconditionalExit = false) :
    need i = 0 := h.pads.need_eq_zero hs hexit

/-- A scan of the code with leaves finds the regions and the states of the walk. -/
theorem exists_scan : ∃ map, RegionMap.scan (padded need code) = .ok map ∧
    map.regions = w.allRegions ∧ ∀ {i k}, i < code.length → k ≤ need i →
      map.stateAt (paddedStart need i + k) = (w.stack i).head? := h.pads.exists_scan

end Walk.Leaving

/-- A walk that inserts leaves into the code of a method. -/
structure Walk.Inserts (w : Walk code) (sealed : Bool) (pool : List Value) (labels : LabelTable)
    (need : Nat → Nat) : Prop where
  leaving : w.Leaving labels need
  built : LabelTable.build code = .ok labels
  shaped : w.Shaped sealed pool
  ne_leave : ∀ {s}, s ∈ code → s.op ≠ .leave
  target : ∀ {s}, s ∈ code → s.op.isBranch = true → ∃ l, s.target? = some l

/-- The leaves that a well formed function gets are those that a walk over its code needs. -/
theorem LoweredFunction.WellFormed.exists_inserts {f g : LoweredFunction} (h : f.WellFormed sealed)
    (hleaves : f.withLeaves = .ok g) : ∃ (w : Walk f.code) (labels : LabelTable) (need : Nat → Nat),
      w.Inserts sealed f.constants labels need ∧ g = { f with code := padded need f.code } := by
  obtain ⟨out, hout, hg⟩ := bind_eq_ok.mp hleaves
  obtain ⟨labels, w, need, hlabels, hw, hcode⟩ := exists_leaving hout h.ne_leave
  obtain ⟨n, hlaid⟩ := h.laid
  refine ⟨w, labels, need, ⟨hw, hlabels, hlaid.shaped w, fun hs ↦ h.ne_leave _ hs,
    fun hs ↦ (h.sound _ hs).branch⟩, ?_⟩
  rw [← Except.ok.inj hg, hcode]

namespace Walk.Inserts

variable (h : w.Inserts sealed pool labels need)

include h

/-- The leaves before a statement are those of the regions that it leaves. -/
theorem exists_leaves (hs : code[i]? = some s) :
    ∃ chain, w.Leaves i s chain ∧ chain.length = need i := by
  have hloc : w.Located (labels.spread need i) (spot need i) i :=
    w.located_spread h.built fun k _ ↦ h.leaving.position k
  have hneeded := h.leaving.needed_allRegions hs
  obtain ⟨chain, hleaves⟩ := h.shaped.exists_leaves hs hloc (Nat.le_refl i) _ hneeded
  refine ⟨chain, hleaves, ?_⟩
  rw [hleaves.leavesNeeded_eq h.shaped hs hloc (Nat.le_refl i)] at hneeded
  exact Except.ok.inj hneeded

end Walk.Inserts

end MethodCompiler
