import Mathlib.Data.List.Nodup
import MethodCompiler.Proofs.Success
import MethodCompiler.Region.Tracker

/-!
# Walking over regions

What one statement does to the regions that are open, and what a walk over all statements keeps: a
region has the regions around it below it on the stack, later regions have larger numbers, and a region
that was closed is not opened again.
-/

namespace MethodCompiler

/-- The open regions, innermost first, with their phases. -/
abbrev RegionStack := List (RegionId × Phase)

variable {regions regions' : List Region} {t t' : RegionTracker} {s : Statement}
  {stack : RegionStack} {position : Nat} {l : String}

/-! ### One statement -/

/-- A statement with its own stack, and the tracker behind it. -/
inductive RegionTracker.Steps (t : RegionTracker) (s : Statement) (position : Nat) :
    RegionStack → RegionTracker → Prop
  | plain : s.label? = none → s.op ≠ .enterTry → s.op ≠ .endFinally → Steps t s position t.stack t
  | crosses {l : String} {stack : RegionStack} : s.label? = some l → t.crossLabel l = .ok stack →
      Steps t s position stack ⟨t.regions, stack⟩
  | opens {r : Region} : s.op = .enterTry → Region.open? s position t.stack = .ok r →
      Steps t s position t.stack ⟨t.regions ++ [r], (t.regions.length, .inTry) :: t.stack⟩
  | closes {id : RegionId} {outer : RegionStack} : s.op = .endFinally →
      t.stack = (id, .inFinally) :: outer → Steps t s position t.stack ⟨t.regions, outer⟩

/-- A region that is opened stands in the open ones, and starts where it is opened. -/
theorem Region.of_open? {r : Region} (h : Region.open? s position stack = .ok r) :
    r.outer = stack ∧ r.start = position := by
  unfold Region.open? at h
  split at h
  · split at h <;> cases h
    exact ⟨rfl, rfl⟩
  · cases h

/-- What a tracker does at a statement is one of the steps that are described. -/
theorem RegionTracker.steps_of_step {state : RegionState}
    (h : t.step s position = .ok (state, t')) :
    ∃ stack, state = stack.head? ∧ t.Steps s position stack t' := by
  cases hl : s.label? with
  | some l =>
    have hop := Statement.op_of_label? hl
    simp only [step, hl, hop] at h
    obtain ⟨stack, hstack, h⟩ := bind_eq_ok.mp h
    cases h
    exact ⟨stack, rfl, .crosses hl (mapError_eq_ok.mp hstack)⟩
  | none =>
    simp only [step, hl, pure_bind] at h
    refine ⟨t.stack, ?_⟩
    split at h
    · next hop =>
      obtain ⟨r, hr, h⟩ := bind_eq_ok.mp h
      cases h
      exact ⟨rfl, .opens hop (mapError_eq_ok.mp hr)⟩
    · next hop =>
      split at h
      · next id outer hstack =>
        cases h
        exact ⟨rfl, .closes hop hstack⟩
      · cases h
    · next hopen hclose =>
      cases h
      exact ⟨rfl, .plain hl hopen hclose⟩

/-- A label leaves the stack as it is, or moves the innermost region on. -/
theorem RegionTracker.crossLabel_cases (h : t.crossLabel l = .ok stack) :
    stack = t.stack ∨ ∃ id phase outer r, t.stack = (id, phase) :: outer ∧
      t.region? id = some r ∧
      (r.catchLabel = some l ∧ phase = .inTry ∧ stack = (id, .inCatch) :: outer ∨
        r.catchLabel ≠ some l ∧ r.finallyLabel = some l ∧ stack = (id, .inFinally) :: outer ∨
        r.endLabel = l ∧ r.finallyLabel = none ∧ stack = outer) := by
  have hforeign {foreign : Bool} (h : (if foreign then Except.error (RegionFault.foreignLabel l)
      else .ok t.stack) = .ok stack) : stack = t.stack := by
    split at h <;> cases h
    rfl
  unfold crossLabel at h
  simp only at h
  split at h
  · exact .inl (hforeign h)
  · next id phase outer hstack =>
    split at h
    · exact .inl (hforeign h)
    · next r hr =>
      split at h
      · next hcatch =>
        split at h <;> cases h
        next hphase =>
        exact .inr ⟨id, phase, outer, r, hstack, hr,
          .inl ⟨beq_iff_eq.mp hcatch, beq_iff_eq.mp hphase, rfl⟩⟩
      · next hcatch =>
        split at h
        · next hfinally =>
          split at h <;> cases h
          exact .inr ⟨id, phase, outer, r, hstack, hr,
            .inr (.inl ⟨by simpa using hcatch, beq_iff_eq.mp hfinally, rfl⟩)⟩
        · split at h
          · next hend =>
            split at h <;> cases h
            next hnone =>
            exact .inr ⟨id, phase, _, r, hstack, hr,
              .inr (.inr ⟨beq_iff_eq.mp hend, by simpa using hnone, rfl⟩)⟩
          · exact .inl (hforeign h)

/-- A label that no open region owns leaves the stack as it is. -/
theorem RegionTracker.crossLabel_of_not_owns (h : t.crossLabel l = .ok stack)
    (hown : ∀ x ∈ t.stack, ∀ r, t.region? x.1 = some r → r.owns l = false) : stack = t.stack := by
  rcases crossLabel_cases h with h | ⟨id, phase, outer, r, hstack, hr, hcases⟩
  · exact h
  · have := hown (id, phase) (by rw [hstack]; exact List.mem_cons_self) r hr
    simp only [Region.owns, Bool.or_eq_false_iff, beq_eq_false_iff_ne] at this
    rcases hcases with ⟨hc, -⟩ | ⟨-, hf, -⟩ | ⟨he, -⟩
    · exact absurd hc this.1.1
    · exact absurd hf this.1.2
    · exact absurd he this.2

/-! ### Stacks -/

/-- Each region on a stack has those below it around it, and they are older. -/
def Linked (regions : List Region) : RegionStack → Prop
  | [] => True
  | (id, _) :: outer => (∃ r, regions[id]? = some r ∧ r.outer = outer) ∧
      (∀ x ∈ outer, x.1 < id) ∧ Linked regions outer

/-- A stack stays linked when regions are added. -/
theorem Linked.mono (h : Linked regions stack) (hle : regions <+: regions') :
    Linked regions' stack := by
  induction stack with
  | nil => trivial
  | cons x outer ih =>
    obtain ⟨⟨r, hr, houter⟩, hold, hrest⟩ := h
    refine ⟨⟨r, ?_, houter⟩, hold, ih hrest⟩
    obtain ⟨more, rfl⟩ := hle
    rw [List.getElem?_append_left (List.getElem?_eq_some_iff.mp hr).1, hr]

/-- A linked stack is found again from its innermost region. -/
theorem Linked.stackAt (h : Linked regions stack) : stackAt regions stack.head? = stack := by
  cases stack with
  | nil => rfl
  | cons x outer =>
    obtain ⟨⟨r, hr, houter⟩, -⟩ := h
    rw [List.head?_cons, MethodCompiler.stackAt, hr, Option.elim_some, houter]

/-- The regions of a linked stack are known. -/
theorem Linked.lt_length (h : Linked regions stack) {x : RegionId × Phase} (hx : x ∈ stack) :
    x.1 < regions.length := by
  induction stack with
  | nil => cases hx
  | cons y outer ih =>
    obtain ⟨⟨r, hr, -⟩, -, hrest⟩ := h
    rcases List.mem_cons.mp hx with rfl | hx
    · exact (List.getElem?_eq_some_iff.mp hr).1
    · exact ih hrest hx

/-- What is below some regions of a linked stack is linked. -/
theorem Linked.of_append {inner : RegionStack} (h : Linked regions (inner ++ stack)) :
    Linked regions stack := by
  induction inner with
  | nil => exact h
  | cons x inner ih => exact ih h.2.2

/-- The regions below a region on the stack are those around it. -/
theorem Linked.outer {inner outer : RegionStack} {id : RegionId} {phase : Phase} {r : Region}
    (h : Linked regions (inner ++ (id, phase) :: outer)) (hr : regions[id]? = some r) :
    r.outer = outer := by
  obtain ⟨⟨r', hr', houter⟩, -⟩ := h.of_append
  rw [hr'] at hr
  cases hr
  exact houter

/-- A region is on the stack once. -/
theorem Linked.phase_unique {inner outer : RegionStack} {id : RegionId} {phase phase' : Phase}
    (h : Linked regions (inner ++ (id, phase) :: outer))
    (hx : (id, phase') ∈ inner ++ (id, phase) :: outer) : phase' = phase := by
  induction inner with
  | nil =>
    rcases List.mem_cons.mp hx with hx | hx
    · exact congrArg Prod.snd hx
    · exact absurd (h.2.1 _ hx) (Nat.lt_irrefl id)
  | cons y inner ih =>
    rcases List.mem_cons.mp hx with hx | hx
    · subst hx
      exact absurd (h.2.1 (id, phase) (by simp)) (Nat.lt_irrefl id)
    · exact ih h.2.2 hx

namespace RegionTracker

/-- What a walk keeps about its tracker. -/
def Ordered (t : RegionTracker) : Prop := Linked t.regions t.stack

/-- A step keeps all regions that are known. -/
theorem Steps.regions_le (h : t.Steps s position stack t') : t.regions <+: t'.regions := by
  cases h with
  | opens => exact List.prefix_append _ _
  | plain | crosses | closes => exact List.prefix_rfl

/-- A step leaves the open regions standing in one another. -/
theorem Steps.linked (h : t.Steps s position stack t') (ht : t.Ordered) :
    Linked t.regions stack ∧ t'.Ordered := by
  cases h with
  | plain => exact ⟨ht, ht⟩
  | crosses _ hcross =>
    have hstack : Linked t.regions stack := by
      rcases crossLabel_cases hcross with rfl | ⟨id, phase, outer, r, hstack, hr, hcases⟩
      · exact ht
      · rw [Ordered, hstack] at ht
        rcases hcases with ⟨-, -, rfl⟩ | ⟨-, -, rfl⟩ | ⟨-, -, rfl⟩
        · exact ht
        · exact ht
        · exact ht.2.2
    exact ⟨hstack, hstack⟩
  | @opens r _ hopen =>
    exact ⟨ht, ⟨r, by simp, (Region.of_open? hopen).1⟩, fun x hx ↦ ht.lt_length hx,
      ht.mono (List.prefix_append _ _)⟩
  | closes _ hstack =>
    rw [Ordered, hstack] at ht
    exact ⟨hstack ▸ ht, ht.2.2⟩

/-- A statement opens no region that is not new. -/
private theorem Steps.mem (h : t.Steps s position stack t') {id : RegionId} (hid : id < t.regions.length) :
    (∀ phase, (id, phase) ∈ stack → ∃ phase', (id, phase') ∈ t.stack) ∧
      ∀ phase, (id, phase) ∈ t'.stack → ∃ phase', (id, phase') ∈ stack := by
  cases h with
  | plain => exact ⟨fun phase hx ↦ ⟨phase, hx⟩, fun phase hx ↦ ⟨phase, hx⟩⟩
  | crosses _ hcross =>
    refine ⟨fun phase hx ↦ ?_, fun phase hx ↦ ⟨phase, hx⟩⟩
    rcases crossLabel_cases hcross with rfl | ⟨id', phase', outer, r, hstack, hr, hcases⟩
    · exact ⟨phase, hx⟩
    · rw [hstack]
      rcases hcases with ⟨-, -, rfl⟩ | ⟨-, -, rfl⟩ | ⟨-, -, rfl⟩
      · rcases List.mem_cons.mp hx with hx | hx
        · cases hx
          exact ⟨phase', List.mem_cons_self⟩
        · exact ⟨phase, List.mem_cons_of_mem _ hx⟩
      · rcases List.mem_cons.mp hx with hx | hx
        · cases hx
          exact ⟨phase', List.mem_cons_self⟩
        · exact ⟨phase, List.mem_cons_of_mem _ hx⟩
      · exact ⟨phase, List.mem_cons_of_mem _ hx⟩
  | opens =>
    refine ⟨fun phase hx ↦ ⟨phase, hx⟩, fun phase hx ↦ ⟨phase, ?_⟩⟩
    rcases List.mem_cons.mp hx with hx | hx
    · cases hx
      exact absurd hid (Nat.lt_irrefl _)
    · exact hx
  | closes _ hstack =>
    refine ⟨fun phase hx ↦ ⟨phase, hx⟩, fun phase hx ↦ ⟨phase, ?_⟩⟩
    rw [hstack]
    exact List.mem_cons_of_mem _ hx

/-- A statement takes a region from one part to the next, or closes it. -/
inductive Turns (s : Statement) (stack : RegionStack) (t' : RegionTracker) (id : RegionId)
    (r : Region) : Phase → Prop
  | cleanup {phase : Phase} {l : String} : phase ≠ .inFinally → s.label? = some l →
      r.finallyLabel = some l → (id, .inFinally) ∈ stack → (id, .inFinally) ∈ t'.stack →
      Turns s stack t' id r phase
  | ends {phase : Phase} : s.label? = some r.endLabel → r.finallyLabel = none →
      (∀ phase, (id, phase) ∉ stack) → (∀ phase, (id, phase) ∉ t'.stack) →
      Turns s stack t' id r phase
  | finishes : s.op = .endFinally → (id, .inFinally) ∈ stack → (∀ phase, (id, phase) ∉ t'.stack) →
      Turns s stack t' id r .inFinally

/-- What a statement does to a region that is open: it stays in the same part, or turns. -/
theorem Steps.stays_or_turns (h : t.Steps s position stack t') (ht : t.Ordered) {id : RegionId}
    {phase : Phase} {r : Region} (hx : (id, phase) ∈ t.stack) (hr : t.regions[id]? = some r) :
    (∃ phase', (phase' = .inFinally ↔ phase = .inFinally) ∧ (id, phase') ∈ stack ∧
      (id, phase') ∈ t'.stack) ∨ Turns s stack t' id r phase := by
  cases h with
  | plain => exact .inl ⟨phase, Iff.rfl, hx, hx⟩
  | opens => exact .inl ⟨phase, Iff.rfl, hx, List.mem_cons_of_mem _ hx⟩
  | @closes id' outer hop hstack =>
    rw [Ordered, hstack] at ht
    rw [hstack] at hx ⊢
    rcases List.mem_cons.mp hx with hx | hx
    · cases hx
      refine .inr (.finishes hop List.mem_cons_self fun phase hx ↦ ?_)
      exact Nat.lt_irrefl id (ht.2.1 _ hx)
    · exact .inl ⟨phase, Iff.rfl, List.mem_cons_of_mem _ hx, hx⟩
  | @crosses l _ hl hcross =>
    rcases crossLabel_cases hcross with rfl | ⟨id', phase', outer, r', hstack, hr', hcases⟩
    · exact .inl ⟨phase, Iff.rfl, hx, hx⟩
    rw [Ordered, hstack] at ht
    rw [hstack] at hx
    rcases List.mem_cons.mp hx with hx | hx
    · -- the label moves the region itself on
      cases hx
      rw [region?, hr] at hr'
      cases hr'
      rcases hcases with ⟨-, rfl, rfl⟩ | ⟨-, hfinally, rfl⟩ | ⟨rfl, hnone, rfl⟩
      · exact .inl ⟨.inCatch, by simp, List.mem_cons_self, List.mem_cons_self⟩
      · by_cases hphase : phase = .inFinally
        · exact .inl ⟨.inFinally, by simp [hphase], List.mem_cons_self, List.mem_cons_self⟩
        · exact .inr (.cleanup hphase hl hfinally List.mem_cons_self List.mem_cons_self)
      · have hold : ∀ phase, (id, phase) ∉ stack := fun phase hx ↦
          Nat.lt_irrefl id (ht.2.1 _ hx)
        exact .inr (.ends hl hnone hold hold)
    · have hkept : (id, phase) ∈ stack := by
        rcases hcases with ⟨-, -, rfl⟩ | ⟨-, -, rfl⟩ | ⟨-, -, rfl⟩
        · exact List.mem_cons_of_mem _ hx
        · exact List.mem_cons_of_mem _ hx
        · exact hx
      exact .inl ⟨phase, Iff.rfl, hkept, hkept⟩

end RegionTracker

/-! ### All statements -/

/-- A walk over code: the tracker before each statement, and the statement's own stack. The positions
that the walk is told need not be those in the code. -/
structure Walk (code : List Statement) where
  position : Nat → Nat
  tracker : Nat → RegionTracker
  stack : Nat → RegionStack
  start : tracker 0 = {}
  steps : ∀ {i s}, code[i]? = some s →
    (tracker i).Steps s (position i) (stack i) (tracker (i + 1))

namespace Walk

variable {code : List Statement} {i j : Nat}

/-- The open regions stand in one another all along a walk. -/
theorem ordered (w : Walk code) (h : i ≤ code.length) :
    (w.tracker i).Ordered := by
  induction i with
  | zero =>
    rw [w.start]
    trivial
  | succ i ih =>
    exact ((w.steps (List.getElem?_eq_getElem h)).linked (ih (Nat.le_of_succ_le h))).2

/-- The regions that are open at a statement stand in one another, before those behind it are known. -/
theorem linked (w : Walk code) (h : i < code.length) :
    Linked (w.tracker i).regions (w.stack i) :=
  ((w.steps (List.getElem?_eq_getElem h)).linked (w.ordered (Nat.le_of_lt h))).1

/-- Regions stay known along a walk. -/
theorem regions_le (w : Walk code) (hij : i ≤ j) (hj : j ≤ code.length) :
    (w.tracker i).regions <+: (w.tracker j).regions := by
  induction j with
  | zero =>
    obtain rfl := Nat.le_zero.mp hij
    exact List.prefix_rfl
  | succ j ih =>
    rcases Nat.le_succ_iff.mp hij with hij | rfl
    · exact (ih hij (Nat.le_of_succ_le hj)).trans
        (w.steps (List.getElem?_eq_getElem hj)).regions_le
    · exact List.prefix_rfl

/-- A region is opened by the `try` at its start. -/
theorem exists_opens (w : Walk code) {k : Nat} {id : RegionId} {r : Region} (hk : k ≤ code.length)
    (hr : (w.tracker k).regions[id]? = some r) : ∃ i, i < k ∧ r.start = w.position i ∧
      (w.tracker i).regions.length = id ∧ (w.tracker (i + 1)).stack = (id, .inTry) :: w.stack i := by
  induction k with
  | zero =>
    rw [w.start] at hr
    cases hr
  | succ k ih =>
    have hstep := w.steps (List.getElem?_eq_getElem hk)
    have hold (hr : (w.tracker k).regions[id]? = some r) : ∃ i, i < k + 1 ∧
        r.start = w.position i ∧ (w.tracker i).regions.length = id ∧
        (w.tracker (i + 1)).stack = (id, .inTry) :: w.stack i := by
      obtain ⟨i, hi, hopens⟩ := ih (Nat.le_of_succ_le hk) hr
      exact ⟨i, Nat.lt_succ_of_lt hi, hopens⟩
    generalize hS : w.stack k = S, htracker : w.tracker (k + 1) = t' at hstep hr
    cases hstep with
    | plain => exact hold hr
    | crosses => exact hold hr
    | closes => exact hold hr
    | @opens r' _ hopen =>
      rcases Nat.lt_or_ge id (w.tracker k).regions.length with hlt | hge
      · rw [List.getElem?_append_left hlt] at hr
        exact hold hr
      · rw [List.getElem?_append_right hge] at hr
        obtain ⟨hid, hr⟩ := List.getElem?_eq_some_iff.mp hr
        rw [List.length_singleton] at hid
        have hlength : (w.tracker k).regions.length = id := by omega
        rw [List.getElem_singleton] at hr
        refine ⟨k, Nat.lt_succ_self k, ?_, hlength, ?_⟩
        · rw [← hr, (Region.of_open? hopen).2]
        · rw [htracker, hlength, hS]

/-- Each region is opened at some statement. -/
theorem exists_opening (w : Walk code) {k : Nat} {id : RegionId} {r : Region} (hk : k ≤ code.length)
    (hr : (w.tracker k).regions[id]? = some r) : ∃ i, i < k ∧ r.start = w.position i ∧
      (w.tracker i).regions.length = id := by
  obtain ⟨i, hi, hstart, hlength, -⟩ := w.exists_opens hk hr
  exact ⟨i, hi, hstart, hlength⟩

/-- A region that was closed is not opened again. -/
theorem not_mem_of_closed (w : Walk code) {id : RegionId} {phase : Phase}
    (hid : id < (w.tracker i).regions.length) (hclosed : ∀ phase, (id, phase) ∉ (w.tracker i).stack)
    (hij : i ≤ j) (hj : j < code.length) : (id, phase) ∉ w.stack j := by
  have hrest (j : Nat) (hij : i ≤ j) (hj : j ≤ code.length) :
      ∀ phase, (id, phase) ∉ (w.tracker j).stack := by
    induction j with
    | zero =>
      rw [← Nat.le_zero.mp hij]
      exact hclosed
    | succ j ih =>
      rcases Nat.le_succ_iff.mp hij with hij | rfl
      · intro phase hx
        have hstep := w.steps (List.getElem?_eq_getElem hj)
        have hlt := Nat.lt_of_lt_of_le hid
          (w.regions_le hij (Nat.le_of_succ_le hj)).length_le
        obtain ⟨phase₁, hx₁⟩ := (hstep.mem hlt).2 phase hx
        obtain ⟨phase₂, hx₂⟩ := (hstep.mem hlt).1 phase₁ hx₁
        exact ih hij (Nat.le_of_succ_le hj) phase₂ hx₂
      · exact hclosed
  intro hx
  have hlt := Nat.lt_of_lt_of_le hid (w.regions_le hij (Nat.le_of_lt hj)).length_le
  obtain ⟨phase', hx'⟩ := ((w.steps (List.getElem?_eq_getElem hj)).mem hlt).1 phase hx
  exact hrest j hij (Nat.le_of_lt hj) phase' hx'

end Walk

end MethodCompiler
