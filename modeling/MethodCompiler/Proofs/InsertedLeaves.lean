import MethodCompiler.Proofs.RegionLayout
import MethodCompiler.Region.Leave

/-!
# Where leaves are inserted

Inserting leaves puts a number of them before each statement, and nothing else. That number is what the
statement needs by the stack of a walk over the code without leaves: as many as the regions that a
`return`, a throw or a jump leaves and that are not in their cleanup.
-/

namespace MethodCompiler

variable {code rest : List Statement} {need : Nat → Nat} {i j k p : Nat} {s : Statement} {l : String}

/-! ### Places -/

/-- The position of the first leave of a statement, given how many each statement has. -/
def paddedStart (need : Nat → Nat) : Nat → Nat
  | 0 => 0
  | i + 1 => paddedStart need i + need i + 1

/-- Code with leaves before its statements. -/
def padded (need : Nat → Nat) : List Statement → List Statement
  | [] => []
  | s :: rest => List.replicate (need 0) Statement.leave ++ s :: padded (fun i ↦ need (i + 1)) rest

/-- Where statement `j` stands while the leaves of the first `i` statements are there. -/
def spot (need : Nat → Nat) (i j : Nat) : Nat :=
  if j < i then paddedStart need j + need j else paddedStart need i + (j - i)

/-- The leaves of the first statement and the statement itself stand before the others. -/
theorem paddedStart_succ (need : Nat → Nat) (i : Nat) :
    paddedStart need (i + 1) = need 0 + 1 + paddedStart (fun i ↦ need (i + 1)) i := by
  induction i with
  | zero => simp only [paddedStart, Nat.zero_add, Nat.add_zero]
  | succ i ih =>
    rw [paddedStart, ih, paddedStart]
    omega

/-- A statement stands before the leaves of any later one. -/
theorem paddedStart_add_lt (need : Nat → Nat) (h : i < j) :
    paddedStart need i + need i < paddedStart need j := by
  induction j with
  | zero => omega
  | succ j ih =>
    rw [paddedStart]
    rcases Nat.lt_or_eq_of_le (Nat.le_of_lt_succ h) with h | rfl
    · have := ih h
      omega
    · omega

/-- Inserting leaves keeps the order of positions. -/
theorem spot_lt_spot : spot need i j < spot need i k ↔ j < k := by
  have hmono {j k : Nat} (h : j < k) : spot need i j < spot need i k := by
    unfold spot
    by_cases hk : k < i
    · rw [if_pos (Nat.lt_trans h hk), if_pos hk]
      have := paddedStart_add_lt need h
      omega
    · rw [if_neg hk]
      by_cases hj : j < i
      · rw [if_pos hj]
        have := paddedStart_add_lt need hj
        omega
      · rw [if_neg hj]
        omega
  constructor
  · intro h
    by_contra hge
    rcases Nat.lt_or_eq_of_le (Nat.le_of_not_lt hge) with hlt | rfl
    · exact Nat.lt_asymm h (hmono hlt)
    · exact Nat.lt_irrefl _ h
  · exact hmono

private theorem spot_succ (need : Nat → Nat) (i j : Nat) : spot need (i + 1) j =
    if paddedStart need i ≤ spot need i j then spot need i j + need i else spot need i j := by
  by_cases hlt : j < i
  · have hspot : spot need i j = paddedStart need j + need j := if_pos hlt
    have := paddedStart_add_lt need hlt
    rw [hspot, if_neg (by omega), spot, if_pos (by omega)]
  · have hspot : spot need i j = paddedStart need i + (j - i) := if_neg hlt
    rw [hspot, if_pos (by omega), spot]
    by_cases heq : j = i
    · rw [if_pos (by omega), heq]
      omega
    · rw [if_neg (by omega), paddedStart]
      omega

/-- Code with leaves ends where the leaves behind it would start. -/
theorem length_padded : (padded need code).length = paddedStart need code.length := by
  induction code generalizing need with
  | nil => rfl
  | cons s rest ih =>
    rw [padded, List.length_append, List.length_replicate, List.length_cons, ih, List.length_cons,
      paddedStart_succ]
    omega

/-- A statement stands behind its leaves. -/
theorem getElem?_padded : (h : i < code.length) →
    (padded need code)[paddedStart need i + need i]? = code[i]? := by
  induction code generalizing need i with
  | nil => exact fun h ↦ absurd h (Nat.not_lt_zero i)
  | cons s rest ih =>
    intro h
    rw [padded]
    cases i with
    | zero => simp [paddedStart]
    | succ i =>
      rw [paddedStart_succ, List.getElem?_append_right (by rw [List.length_replicate]; omega),
        List.length_replicate, show need 0 + 1 + paddedStart (fun i ↦ need (i + 1)) i + need (i + 1) -
          need 0 = paddedStart (fun i ↦ need (i + 1)) i + need (i + 1) + 1 by omega,
        List.getElem?_cons_succ, List.getElem?_cons_succ]
      exact ih (Nat.lt_of_succ_lt_succ h)

/-- A label moves behind the leaves that are inserted before it. -/
theorem labelAt?_padded_of_labelAt? (h : labelAt? code i = some l) :
    labelAt? (padded need code) (paddedStart need i + need i) = some l := by
  obtain ⟨s, hs, -⟩ := Option.bind_eq_some_iff.mp h
  rw [labelAt?, getElem?_padded (List.getElem?_eq_some_iff.mp hs).1]
  exact h

/-- The leaves of a statement stand directly before it. -/
theorem getElem?_padded_leave (h : i < code.length) (hk : k < need i) :
    (padded need code)[paddedStart need i + k]? = some .leave := by
  induction code generalizing need i with
  | nil => exact absurd h (Nat.not_lt_zero i)
  | cons s rest ih =>
    rw [padded]
    cases i with
    | zero =>
      rw [paddedStart, Nat.zero_add, List.getElem?_append_left (by rwa [List.length_replicate]),
        List.getElem?_replicate_of_lt hk]
    | succ i =>
      rw [paddedStart_succ, List.getElem?_append_right (by rw [List.length_replicate]; omega),
        List.length_replicate, show need 0 + 1 + paddedStart (fun i ↦ need (i + 1)) i + k -
          need 0 = paddedStart (fun i ↦ need (i + 1)) i + k + 1 by omega, List.getElem?_cons_succ]
      exact ih (Nat.lt_of_succ_lt_succ h) hk

/-- Each position belongs to a statement or to one of its leaves. -/
theorem exists_paddedStart (h : p < (padded need code).length) :
    ∃ i k, i < code.length ∧ k ≤ need i ∧ p = paddedStart need i + k := by
  rw [length_padded] at h
  generalize code.length = n at h ⊢
  induction n with
  | zero => exact absurd h (Nat.not_lt_zero p)
  | succ n ih =>
    by_cases hlt : p < paddedStart need n
    · obtain ⟨i, k, hi, hk, hp⟩ := ih hlt
      exact ⟨i, k, Nat.lt_succ_of_lt hi, hk, hp⟩
    · rw [paddedStart] at h
      exact ⟨n, p - paddedStart need n, Nat.lt_succ_self n, by omega, by omega⟩

/-- A statement of code with leaves that is no leave. -/
theorem exists_of_getElem?_padded (hs : (padded need code)[p]? = some s)
    (hop : s.op ≠ .leave) : ∃ i, code[i]? = some s ∧ p = paddedStart need i + need i := by
  obtain ⟨i, k, hi, hk, rfl⟩ := exists_paddedStart (List.getElem?_eq_some_iff.mp hs).1
  rcases Nat.lt_or_eq_of_le hk with hk | rfl
  · rw [getElem?_padded_leave hi hk] at hs
    cases hs
    exact absurd rfl hop
  · rw [getElem?_padded hi] at hs
    exact ⟨i, hs, rfl⟩

/-- Code with leaves has only leaves besides its own statements. -/
theorem mem_padded (h : s ∈ padded need code) : s = .leave ∨ s ∈ code := by
  induction code generalizing need with
  | nil => cases h
  | cons t rest ih =>
    rw [padded, List.mem_append, List.mem_cons] at h
    rcases h with h | rfl | h
    · exact .inl (List.mem_replicate.mp h).2
    · exact .inr List.mem_cons_self
    · exact (ih h).imp_right (List.mem_cons_of_mem _)

/-- Inserting leaves keeps the labels that are defined. -/
theorem labelsOf_padded (need : Nat → Nat) (code : List Statement) :
    labelsOf (padded need code) = labelsOf code := by
  induction code generalizing need with
  | nil => rfl
  | cons s rest ih =>
    have hleaves (n : Nat) : labelsOf (List.replicate n Statement.leave) = [] := by
      induction n with
      | zero => rfl
      | succ n ih => exact ih
    rw [padded, labelsOf_append, hleaves, ← List.singleton_append, labelsOf_append, ih,
      ← labelsOf_append]
    rfl

private theorem getLast?_padded (need : Nat → Nat) (code : List Statement) :
    (padded need code).getLast? = code.getLast? := by
  induction code generalizing need with
  | nil => rfl
  | cons s rest ih =>
    rw [padded, List.getLast?_append, List.getLast?_cons, ih, List.getLast?_cons]
    rfl

/-- Inserting leaves keeps code closed. -/
theorem closed_padded (need : Nat → Nat) (h : Closed code) : Closed (padded need code) := by
  rw [Closed, getLast?_padded]
  exact h

/-- Leaves are inserted into each of two parts by itself. -/
theorem padded_append (need : Nat → Nat) (a b : List Statement) :
    padded need (a ++ b) = padded need a ++ padded (fun i ↦ need (a.length + i)) b := by
  induction a generalizing need with
  | nil => simp [padded]
  | cons s a ih =>
    rw [List.cons_append, padded, padded, ih, List.append_assoc, List.cons_append, List.length_cons]
    simp only [Nat.add_right_comm]

/-- No leave stands at the end of code with leaves. -/
theorem leavesBefore_padded (need : Nat → Nat) (hcode : ∀ s ∈ code, s.op ≠ .leave) :
    leavesBefore (padded need code).reverse = 0 := by
  rcases List.eq_nil_or_concat code with rfl | ⟨init, s, rfl⟩
  · rfl
  · have hs : s.op ≠ .leave := hcode s (by simp)
    rw [List.concat_eq_append, padded_append, padded, padded]
    simp [leavesBefore, hs]

/-! ### Labels while leaves are inserted -/

/-- A label table while the leaves of the first `i` statements are there. -/
def LabelTable.spread (need : Nat → Nat) (i : Nat) (table : LabelTable) : LabelTable :=
  table.map fun (name, j) ↦ (name, spot need i j)

private theorem LabelTable.spread_zero (need : Nat → Nat) (table : LabelTable) :
    table.spread need 0 = table := by
  have hid : (fun e : String × Nat ↦ (e.1, spot need 0 e.2)) = id := by
    funext e
    simp [spot, paddedStart]
  rw [spread, hid, List.map_id]

/-- Making room for the leaves of the next statement. -/
private theorem LabelTable.shift_spread (need : Nat → Nat) (i : Nat) (table : LabelTable) :
    (table.spread need i).shift (paddedStart need i) (need i) = table.spread need (i + 1) := by
  rw [shift, spread, List.map_map, spread]
  congr 1
  funext e
  exact congrArg (Prod.mk e.1) (spot_succ need i e.2).symm

/-! ### The walk of an insertion -/

/-- The walk that inserts leaves: each statement gets as many as it needs when it is reached. -/
structure Walk.Leaving (w : Walk code) (labels : LabelTable) (need : Nat → Nat) : Prop where
  position : ∀ i, w.position i = paddedStart need i
  needed : ∀ {i s}, code[i]? = some s →
    leavesNeeded (w.tracker (i + 1)).regions (stackAt (w.tracker (i + 1)).regions (w.stack i).head?)
      (labels.spread need i) s (paddedStart need i) = .ok (need i)
  finished : (w.tracker code.length).stack = []

/-- The walk that inserts leaves into code that may have some: each statement gets those that it needs
when it is reached, less those that stand before it. -/
structure Walk.Fills (w : Walk code) (labels : LabelTable) (need : Nat → Nat) : Prop where
  position : ∀ i, w.position i = paddedStart need i
  missing : ∀ {i s}, code[i]? = some s → ∃ n,
    leavesNeeded (w.tracker (i + 1)).regions (stackAt (w.tracker (i + 1)).regions (w.stack i).head?)
      (labels.spread need i) s (paddedStart need i) = .ok n ∧
      need i = n - leavesBefore (padded need (code.take i)).reverse
  finished : (w.tracker code.length).stack = []

/-- What both walks share: no statement gets more leaves than it needs. -/
structure Walk.Pads (w : Walk code) (labels : LabelTable) (need : Nat → Nat) : Prop where
  position : ∀ i, w.position i = paddedStart need i
  bounded : ∀ {i s}, code[i]? = some s → ∃ n, need i ≤ n ∧
    leavesNeeded (w.tracker (i + 1)).regions (stackAt (w.tracker (i + 1)).regions (w.stack i).head?)
      (labels.spread need i) s (paddedStart need i) = .ok n
  finished : (w.tracker code.length).stack = []

/-- Leaves as they are needed are leaves as they are inserted. -/
theorem Walk.Leaving.pads {w : Walk code} {labels : LabelTable} (h : w.Leaving labels need) :
    w.Pads labels need :=
  ⟨h.position, fun hs ↦ ⟨_, Nat.le_refl _, h.needed hs⟩, h.finished⟩

/-- Leaves that fill up those that stand there are leaves as they are inserted. -/
theorem Walk.Fills.pads {w : Walk code} {labels : LabelTable} (h : w.Fills labels need) :
    w.Pads labels need := by
  refine ⟨h.position, fun hs ↦ ?_, h.finished⟩
  obtain ⟨n, hneeded, hneed⟩ := h.missing hs
  exact ⟨n, hneed ▸ Nat.sub_le _ _, hneeded⟩

/-- A sequence with a new first item. -/
def prepend {α : Type} (a : α) (f : Nat → α) : Nat → α
  | 0 => a
  | i + 1 => f i

private theorem paddedStart_prepend (n : Nat) (need : Nat → Nat) (i : Nat) :
    paddedStart (prepend n need) (i + 1) = n + 1 + paddedStart need i :=
  paddedStart_succ (prepend n need) i

/-- Room for the leaves of the first `i` statements, the first of which has position `start`. -/
def LabelTable.makeRoom (start : Nat) (need : Nat → Nat) (labels : LabelTable) : Nat → LabelTable
  | 0 => labels
  | i + 1 => (labels.makeRoom start need i).shift (start + paddedStart need i) (need i)

/-- Making room statement by statement moves each label by all leaves before it. -/
theorem LabelTable.makeRoom_eq_spread (need : Nat → Nat) (labels : LabelTable) (i : Nat) :
    labels.makeRoom 0 need i = labels.spread need i := by
  induction i with
  | zero => exact (labels.spread_zero need).symm
  | succ i ih => rw [makeRoom, ih, Nat.zero_add, shift_spread]

/-- Room is made for the leaves of the first statement, then for those of the others. -/
theorem LabelTable.makeRoom_prepend (start n : Nat) (need : Nat → Nat) (labels : LabelTable)
    (i : Nat) : labels.makeRoom start (prepend n need) (i + 1) =
      (labels.shift start n).makeRoom (start + n + 1) need i := by
  induction i with
  | zero => rfl
  | succ i ih =>
    rw [makeRoom, ih, paddedStart_prepend, makeRoom, Nat.add_assoc start n 1, Nat.add_assoc start]
    rfl

/-- Each statement gets the leaves that it needs and that do not stand before it yet, and nothing else is
inserted. -/
theorem exists_of_insertLeavesFrom {t : RegionTracker} {labels : LabelTable}
    {before : List Statement} {out : LabelledCode}
    (h : insertLeavesFrom t labels before rest = .ok out) :
    ∃ (need : Nat → Nat) (tracker : Nat → RegionTracker) (stack : Nat → RegionStack),
      tracker 0 = t ∧ (tracker rest.length).stack = [] ∧
      out = ⟨before.reverse ++ padded need rest, labels.makeRoom before.length need rest.length⟩ ∧
      ∀ i s, rest[i]? = some s →
        (tracker i).Steps s (before.length + paddedStart need i) (stack i) (tracker (i + 1)) ∧
        ∃ n, leavesNeeded (tracker (i + 1)).regions
            (stackAt (tracker (i + 1)).regions (stack i).head?) (labels.makeRoom before.length need i) s
            (before.length + paddedStart need i) = .ok n ∧
          need i = n - leavesBefore ((padded need (rest.take i)).reverse ++ before) := by
  induction rest generalizing t labels before with
  | nil =>
    rw [insertLeavesFrom] at h
    obtain ⟨regions, hfinish, h⟩ := bind_eq_ok.mp h
    cases h
    refine ⟨fun _ ↦ 0, fun _ ↦ t, fun _ ↦ [], rfl, ?_, ?_, nofun⟩
    swap
    · rw [padded, List.append_nil]
      rfl
    rw [RegionTracker.finish] at hfinish
    split at hfinish
    · assumption
    · cases hfinish
  | cons s rest ih =>
    rw [insertLeavesFrom] at h
    obtain ⟨⟨state, t'⟩, hstep, h⟩ := bind_eq_ok.mp h
    obtain ⟨needed, hneeded, h⟩ := bind_eq_ok.mp h
    simp only at h
    generalize hmissing : needed - leavesBefore before = missing at h
    obtain ⟨stack₀, hstate, hsteps⟩ := RegionTracker.steps_of_step hstep
    rw [hstate] at hneeded
    obtain ⟨need, tracker, stack, hstart, hfinished, hout, hall⟩ := ih h
    have hlength : (s :: (List.replicate missing Statement.leave ++ before)).length =
        before.length + missing + 1 := by
      rw [List.length_cons, List.length_append, List.length_replicate]
      omega
    have hbefore (i : Nat) :
        (padded (prepend missing need) ((s :: rest).take (i + 1))).reverse ++ before =
          (padded need (rest.take i)).reverse ++ s :: (List.replicate missing Statement.leave ++ before) := by
      simp [padded, prepend]
    refine ⟨prepend missing need, prepend t tracker, prepend stack₀ stack, rfl, hfinished, ?_, ?_⟩
    · rw [hout, hlength, List.length_cons, LabelTable.makeRoom_prepend, List.reverse_cons,
        List.reverse_append, List.reverse_replicate]
      simp [padded, prepend]
    · intro i u hu
      cases i with
      | zero =>
        cases hu
        rw [← hstart] at hsteps hneeded
        exact ⟨hsteps, needed, hneeded, hmissing.symm⟩
      | succ i =>
        obtain ⟨hsteps, n, hneeded, hneed⟩ := hall i u hu
        rw [hlength] at hsteps hneeded
        have hposition : before.length + paddedStart (prepend missing need) (i + 1) =
            before.length + missing + 1 + paddedStart need i := by
          rw [paddedStart_prepend]
          omega
        rw [LabelTable.makeRoom_prepend, hposition, hbefore]
        exact ⟨hsteps, n, hneeded, hneed⟩

/-- Inserting leaves is a walk over the code. -/
theorem exists_fills {out : LabelledCode} (h : insertLeaves code = .ok out) :
    ∃ (labels : LabelTable) (w : Walk code) (need : Nat → Nat), LabelTable.build code = .ok labels ∧
      w.Fills labels need ∧ out = ⟨padded need code, labels.spread need code.length⟩ := by
  obtain ⟨labels, hlabels, h⟩ := bind_eq_ok.mp h
  obtain ⟨need, tracker, stack, hstart, hfinished, hout, hall⟩ := exists_of_insertLeavesFrom h
  simp only [List.length_nil, Nat.zero_add, LabelTable.makeRoom_eq_spread, List.append_nil] at hout hall
  exact ⟨labels, ⟨paddedStart need, tracker, stack, hstart, fun hs ↦ (hall _ _ hs).1⟩, need, hlabels,
    ⟨fun _ ↦ rfl, fun hs ↦ (hall _ _ hs).2, hfinished⟩, hout⟩

/-- Into code without leaves, that walk inserts all that are needed. -/
theorem exists_leaving {out : LabelledCode} (h : insertLeaves code = .ok out)
    (hcode : ∀ s ∈ code, s.op ≠ .leave) :
    ∃ (labels : LabelTable) (w : Walk code) (need : Nat → Nat), LabelTable.build code = .ok labels ∧
      w.Leaving labels need ∧ out = ⟨padded need code, labels.spread need code.length⟩ := by
  obtain ⟨labels, w, need, hlabels, hfills, hout⟩ := exists_fills h
  refine ⟨labels, w, need, hlabels, ⟨hfills.position, fun {i s} hs ↦ ?_, hfills.finished⟩, hout⟩
  obtain ⟨n, hneeded, hneed⟩ := hfills.missing hs
  rw [leavesBefore_padded need fun s hs ↦ hcode s (List.mem_of_mem_take hs), Nat.sub_zero] at hneed
  rw [hneed]
  exact hneeded

end MethodCompiler
