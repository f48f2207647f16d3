import MethodCompiler.Proofs.Layout
import MethodCompiler.Proofs.RegionWalk

/-!
# The regions of laid out code

A walk over laid out code finds the stack behind a part as it was before it. Each region reaches from its
`try` to its end label, its labels stand in their phases, and control that goes on to the next statement
stays in the part of the region that it is in.
-/

namespace MethodCompiler

variable {code : List Statement} {w : Walk code} {sealed : Bool} {pool : List Value} {pos n : Nat}
  {part : List Statement} {l : String}

/-! ### Labels -/

/-- No open region owns the label. -/
def RegionTracker.Disowns (t : RegionTracker) (l : String) : Prop :=
  ∀ x ∈ t.stack, ∀ r, t.region? x.1 = some r → r.owns l = false

/-- The open regions belong to constructs with smaller numbers. -/
def RegionTracker.Below (t : RegionTracker) (n : Nat) : Prop :=
  ∀ x ∈ t.stack, ∀ r, t.region? x.1 = some r → ∀ l, r.owns l = true → constructOf l < n

/-- No open region owns the label of a construct with a larger number. -/
theorem RegionTracker.Below.disowns {t : RegionTracker} (h : t.Below n) (hl : n ≤ constructOf l) :
    t.Disowns l := by
  intro x hx r hr
  cases hown : r.owns l with
  | false => rfl
  | true => exact absurd (h x hx r hr l hown) (Nat.not_lt.mpr hl)

/-- Constructs with smaller numbers have numbers below any larger one. -/
theorem RegionTracker.Below.mono {t : RegionTracker} {n' : Nat} (h : t.Below n) (hn : n ≤ n') :
    t.Below n' :=
  fun x hx r hr l hl ↦ Nat.lt_of_lt_of_le (h x hx r hr l hl) hn

/-- A later w.tracker of a walk with the same open regions. -/
structure RegionTracker.Resumes (t t' : RegionTracker) : Prop where
  ordered : t.Ordered
  regions : t.regions <+: t'.regions
  stack : t'.stack = t.stack

namespace RegionTracker.Resumes

variable {t t' : RegionTracker}

private theorem region? (h : t.Resumes t') {x : RegionId × Phase} (hx : x ∈ t.stack) :
    t'.region? x.1 = t.region? x.1 := by
  obtain ⟨more, hmore⟩ := h.regions
  rw [RegionTracker.region?, RegionTracker.region?, ← hmore,
    List.getElem?_append_left (h.ordered.lt_length hx)]

/-- With the same open regions, their constructs have the same numbers. -/
theorem below (h : t.Resumes t') (hb : t.Below n) : t'.Below n := by
  intro x hx r hr
  rw [h.stack] at hx
  rw [h.region? hx] at hr
  exact hb x hx r hr

/-- With the same open regions, none of them owns a label that none owned before. -/
theorem disowns (h : t.Resumes t') (hd : t.Disowns l) : t'.Disowns l := by
  intro x hx r hr
  rw [h.stack] at hx
  rw [h.region? hx] at hr
  exact hd x hx r hr

end RegionTracker.Resumes

/-! ### What a walk finds -/

/-- The open regions, each with whether it is in its cleanup. -/
def marks (stack : RegionStack) : List (RegionId × Bool) :=
  stack.map fun x ↦ (x.1, x.2 == .inFinally)

/-- Control does not go on to the next statement. -/
def Statement.stops (s : Statement) : Bool := s.op.isUnconditionalExit || s.op == .endFinally

/-- The regions of `outer` are those around the ones that are open in `inner` besides. In sealed code
none of these is in its cleanup. -/
def Outward (sealed : Bool) (inner outer : RegionStack) : Prop :=
  ∃ left, inner = left ++ outer ∧ (sealed = true → ∀ x ∈ left, x.2 ≠ .inFinally)

private theorem Outward.refl (stack : RegionStack) : Outward sealed stack stack := ⟨[], rfl, nofun⟩

private theorem Outward.cons {inner outer : RegionStack} {x : RegionId × Phase}
    (h : Outward sealed inner outer) (hx : sealed = true → x.2 ≠ .inFinally) :
    Outward sealed (x :: inner) outer := by
  obtain ⟨left, rfl, hleft⟩ := h
  exact ⟨x :: left, rfl, fun hs ↦ List.forall_mem_cons.mpr ⟨hx hs, hleft hs⟩⟩

/-- A label that opens no phase, where some of the regions of a stack are open. -/
structure Walk.Reaches {code : List Statement} (w : Walk code) (sealed : Bool) (stack : RegionStack)
    (l : String) : Prop where
  plain : isPhaseMarker l = false
  found : ∃ j, labelAt? code j = some l ∧ Outward sealed stack (w.stack j)

/-- A label that opens no phase, where the regions of a stack are open. -/
structure Walk.Stays {code : List Statement} (w : Walk code) (stack : RegionStack) (l : String) :
    Prop where
  plain : isPhaseMarker l = false
  found : ∃ j, labelAt? code j = some l ∧ w.stack j = stack

private theorem Walk.Stays.reaches {stack : RegionStack} (h : w.Stays stack l) :
    w.Reaches sealed stack l := by
  obtain ⟨j, hj, rfl⟩ := h.found
  exact ⟨h.plain, j, hj, .refl _⟩

private theorem Walk.Reaches.cons {stack : RegionStack} {x : RegionId × Phase}
    (h : w.Reaches sealed stack l) (hx : sealed = true → x.2 ≠ .inFinally) :
    w.Reaches sealed (x :: stack) l := by
  obtain ⟨j, hj, hout⟩ := h.found
  exact ⟨h.plain, j, hj, hout.cons hx⟩

/-- A region reaches from its `try` to its end label. -/
structure RegionPlaced {code : List Statement} (w : Walk code) (id : RegionId) (r : Region)
    (first last : Nat) : Prop where
  start : r.start = w.position first
  opens : ∃ s, code[first]? = some s ∧ s.op = .enterTry
  outer : r.outer = w.stack first
  stop : labelAt? code last = some r.endLabel
  handler : ∀ l, r.catchLabel = some l →
    ∃ j, labelAt? code j = some l ∧ w.stack j = (id, .inCatch) :: r.outer
  marked : ∀ l, r.finallyLabel = some l → isPhaseMarker l = true
  cleanup : ∀ l, r.finallyLabel = some l →
    ∃ j, labelAt? code j = some l ∧ w.stack j = (id, .inFinally) :: r.outer ∧ first < j ∧ j < last ∧
      ∀ i phase, i < code.length → (id, phase) ∈ w.stack i → (phase = .inFinally ↔ j ≤ i)
  no_cleanup : r.finallyLabel = none → ∀ i, i < code.length → (id, .inFinally) ∉ w.stack i
  between : ∀ i, first < i → i < last → ∃ phase, (id, phase) ∈ w.stack i
  only : ∀ i phase, i < code.length → (id, phase) ∈ w.stack i → first < i ∧ i < last

/-- The places that a statement can go to are open in the same regions, or in some of those around. -/
structure Leads {code : List Statement} (w : Walk code) (sealed : Bool) (pool : List Value) (i : Nat)
    (s : Statement) : Prop where
  branch : ∀ l, s.target? = some l → w.Reaches sealed (w.stack i) l
  conditional : s.op.isConditionalBranch = true → ∀ l, s.target? = some l → w.Stays (w.stack i) l
  switch : s.op = .switch → ∀ l ∈ FlowGraph.switchTargets s pool, w.Stays (w.stack i) l

/-- What a walk finds in a part of laid out code. -/
structure Settled {code : List Statement} (w : Walk code) (sealed : Bool) (pool : List Value)
    (targets near own : List String) (pos : Nat) (part : List Statement) : Prop where
  balanced : (w.tracker (pos + part.length)).stack = (w.tracker pos).stack
  around : ∀ i, pos ≤ i → i < pos + part.length → (w.tracker pos).stack <:+ w.stack i
  own : ∀ l ∈ own, ∃ i, labelAt? code i = some l ∧ w.stack i = (w.tracker pos).stack
  leads : (∀ l ∈ targets, w.Reaches sealed (w.tracker pos).stack l) →
    (∀ l ∈ near, w.Stays (w.tracker pos).stack l) → ∀ i s, pos ≤ i → i < pos + part.length →
    code[i]? = some s → Leads w sealed pool i s
  arrives : ∀ i, pos ≤ i → i < pos + part.length → marks (w.stack i) = marks (w.tracker i).stack ∨
    ∃ s, 0 < i ∧ code[i - 1]? = some s ∧ s.stops = true
  placed : ∀ id r, (w.tracker pos).regions.length ≤ id →
    (w.tracker (pos + part.length)).regions[id]? = some r →
    ∃ first last, RegionPlaced w id r first last

namespace Walk

/-- A walk crosses a label with the stack that it finds there. -/
theorem of_label (w : Walk code) {i : Nat} (h : labelAt? code i = some l) :
    (w.tracker i).crossLabel l = .ok (w.stack i) ∧
      w.tracker (i + 1) = ⟨(w.tracker i).regions, w.stack i⟩ := by
  obtain ⟨s, hs, hl⟩ := Option.bind_eq_some_iff.mp h
  have hop := Statement.op_of_label? hl
  have hsteps := w.steps hs
  generalize w.stack i = S, w.tracker (i + 1) = t' at hsteps ⊢
  cases hsteps with
  | plain hnone => rw [hnone] at hl; cases hl
  | crosses hl' hcross =>
    rw [hl'] at hl
    cases hl
    exact ⟨hcross, rfl⟩
  | opens hopen => rw [hop] at hopen; cases hopen
  | closes hclose => rw [hop] at hclose; cases hclose

/-- A statement that is neither a label nor a bound of a region changes nothing. -/
theorem of_plain (w : Walk code) {i : Nat} {s : Statement} (hs : code[i]? = some s)
    (hlabel : s.op ≠ .label) (hopen : s.op ≠ .enterTry) (hclose : s.op ≠ .endFinally) :
    w.stack i = (w.tracker i).stack ∧ w.tracker (i + 1) = w.tracker i := by
  have hsteps := w.steps hs
  generalize w.stack i = S, w.tracker (i + 1) = t' at hsteps ⊢
  cases hsteps with
  | plain => exact ⟨rfl, rfl⟩
  | crosses hl =>
    rw [Statement.label?_of_ne hlabel] at hl
    cases hl
  | opens h => exact absurd h hopen
  | closes h => exact absurd h hclose

/-- A cleanup ends in the region that it is the cleanup of. -/
theorem of_endFinally (w : Walk code) {i : Nat} {s : Statement} (hs : code[i]? = some s)
    (hop : s.op = .endFinally) : ∃ id outer, w.stack i = (id, .inFinally) :: outer := by
  have hsteps := w.steps hs
  generalize w.stack i = S, w.tracker (i + 1) = t' at hsteps ⊢
  cases hsteps with
  | plain _ _ hclose => exact absurd hop hclose
  | crosses hl =>
    rw [Statement.op_of_label? hl] at hop
    cases hop
  | opens hopen =>
    rw [hop] at hopen
    cases hopen
  | closes _ hstack => exact ⟨_, _, hstack⟩

/-- A label that no open region owns changes nothing. -/
private theorem of_disowned (w : Walk code) {i : Nat} (h : labelAt? code i = some l)
    (hd : (w.tracker i).Disowns l) :
    w.stack i = (w.tracker i).stack ∧ w.tracker (i + 1) = w.tracker i := by
  obtain ⟨hcross, hnext⟩ := w.of_label h
  have hstack := RegionTracker.crossLabel_of_not_owns hcross hd
  rw [hnext, hstack]
  exact ⟨rfl, rfl⟩

private theorem resumes (w : Walk code) {i j : Nat} (hij : i ≤ j) (hj : j ≤ code.length)
    (h : (w.tracker j).stack = (w.tracker i).stack) : (w.tracker i).Resumes (w.tracker j) :=
  ⟨w.ordered (Nat.le_trans hij hj), w.regions_le hij hj, h⟩

end Walk

/-! ### Parts -/

namespace Settled

variable {targets near own own' labels : List String} {a b : List Statement}

private theorem nil : Settled w sealed pool targets near [] pos [] where
  balanced := rfl
  around i hi hi' := absurd hi' (Nat.not_lt.mpr hi)
  own l hl := by cases hl
  leads _ _ i s hi hi' := absurd hi' (Nat.not_lt.mpr hi)
  arrives i hi hi' := absurd hi' (Nat.not_lt.mpr hi)
  placed id r hid hr := absurd (List.getElem?_eq_some_iff.mp hr).1 (Nat.not_lt.mpr hid)

/-- A statement that leaves the open regions as they are. -/
private theorem single {s : Statement} (hs : code[pos]? = some s)
    (h : w.stack pos = (w.tracker pos).stack) (hnext : w.tracker (pos + 1) = w.tracker pos)
    (hown : ∀ l ∈ own, labelAt? code pos = some l)
    (hbranch : ∀ l, s.target? = some l → l ∈ targets)
    (hcond : s.op.isConditionalBranch = true → ∀ l, s.target? = some l → l ∈ near)
    (hswitch : s.op = .switch → ∀ l ∈ FlowGraph.switchTargets s pool, l ∈ near) :
    Settled w sealed pool targets near own pos [s] where
  balanced := congrArg RegionTracker.stack hnext
  around i hi hi' := by
    obtain rfl := Nat.le_antisymm (Nat.le_of_lt_succ hi') hi
    exact h ▸ List.suffix_refl _
  own l hl := ⟨pos, hown l hl, h⟩
  leads htargets hnear i s' hi hi' hs' := by
    obtain rfl : i = pos := Nat.le_antisymm (Nat.le_of_lt_succ hi') hi
    rw [hs] at hs'
    cases hs'
    rw [← h] at htargets hnear
    exact ⟨fun l hl ↦ htargets l (hbranch l hl), fun hop l hl ↦ hnear l (hcond hop l hl),
      fun hop l hl ↦ hnear l (hswitch hop l hl)⟩
  arrives i hi hi' := by
    rw [Nat.le_antisymm (Nat.le_of_lt_succ hi') hi, h]
    exact .inl rfl
  placed id r hid hr := by
    rw [List.length_singleton, hnext] at hr
    exact absurd (List.getElem?_eq_some_iff.mp hr).1 (Nat.not_lt.mpr hid)

private theorem append (w : Walk code)
    (h₁ : Settled w sealed pool targets near own pos a)
    (h₂ : Settled w sealed pool targets near own' (pos + a.length) b)
    (hle : pos + (a ++ b).length ≤ code.length) :
    Settled w sealed pool targets near (own ++ own') pos (a ++ b) := by
  rw [List.length_append, ← Nat.add_assoc] at hle
  have hstack := h₁.balanced
  constructor
  · rw [List.length_append, ← Nat.add_assoc, h₂.balanced, hstack]
  · intro i hi hi'
    rw [List.length_append] at hi'
    by_cases hlt : i < pos + a.length
    · exact h₁.around i hi hlt
    · rw [← hstack]
      exact h₂.around i (Nat.le_of_not_lt hlt) (by omega)
  · intro l hl
    rcases List.mem_append.mp hl with hl | hl
    · exact h₁.own l hl
    · rw [← hstack]
      exact h₂.own l hl
  · intro htargets hnear i s hi hi'
    rw [List.length_append] at hi'
    by_cases hlt : i < pos + a.length
    · exact h₁.leads htargets hnear i s hi hlt
    · rw [← hstack] at htargets hnear
      exact h₂.leads htargets hnear i s (Nat.le_of_not_lt hlt) (by omega)
  · intro i hi hi'
    rw [List.length_append] at hi'
    by_cases hlt : i < pos + a.length
    · exact h₁.arrives i hi hlt
    · exact h₂.arrives i (Nat.le_of_not_lt hlt) (by omega)
  · intro id r hid hr
    rw [List.length_append, ← Nat.add_assoc] at hr
    by_cases hlt : id < (w.tracker (pos + a.length)).regions.length
    · refine h₁.placed id r hid ?_
      obtain ⟨more, hmore⟩ := w.regions_le (Nat.le_add_right _ b.length) hle
      rwa [← hmore, List.getElem?_append_left hlt] at hr
    · exact h₂.placed id r (Nat.le_of_not_lt hlt) hr

/-- The labels of a construct are not defined for the constructs around it. -/
private theorem construct
    (h : Settled w sealed pool (labels ++ targets) (labels ++ near) own pos part)
    (hplain : ∀ l ∈ labels, isPhaseMarker l = false) (hlabels : ∀ l ∈ labels, l ∈ own) :
    Settled w sealed pool targets near [] pos part :=
  { h with
    own := fun l hl ↦ by cases hl
    leads := by
      intro htargets hnear
      have hstays (l : String) (hl : l ∈ labels) : w.Stays (w.tracker pos).stack l :=
        ⟨hplain l hl, h.own l (hlabels l hl)⟩
      exact h.leads (List.forall_mem_append.mpr ⟨fun l hl ↦ (hstays l hl).reaches, htargets⟩)
        (List.forall_mem_append.mpr ⟨hstays, hnear⟩) }

end Settled

/-! ### Regions -/

/-- The statements of a part stand in a region around which `outer` is open; `fin` says whether in its
cleanup. -/
structure Segment {code : List Statement} (w : Walk code) (id : RegionId) (outer : RegionStack)
    (fin : Bool) (pos : Nat) (part : List Statement) : Prop where
  ends : ∃ phase, (phase = .inFinally ↔ fin = true) ∧
    (w.tracker (pos + part.length)).stack = (id, phase) :: outer
  held : ∀ i, pos ≤ i → i < pos + part.length →
    ∃ phase, (phase = .inFinally ↔ fin = true) ∧ (id, phase) :: outer <:+ w.stack i
  arrives : ∀ i, pos ≤ i → i < pos + part.length → marks (w.stack i) = marks (w.tracker i).stack ∨
    ∃ s, 0 < i ∧ code[i - 1]? = some s ∧ s.stops = true
  placed : ∀ id' r, (w.tracker pos).regions.length ≤ id' →
    (w.tracker (pos + part.length)).regions[id']? = some r →
    ∃ first last, RegionPlaced w id' r first last

private theorem Settled.segment {targets near own : List String} {id : RegionId} {outer : RegionStack}
    {phase : Phase} {fin : Bool} (h : Settled w sealed pool targets near own pos part)
    (hstack : (w.tracker pos).stack = (id, phase) :: outer) (hfin : phase = .inFinally ↔ fin = true) :
    Segment w id outer fin pos part where
  ends := ⟨phase, hfin, h.balanced.trans hstack⟩
  held i hi hi' := ⟨phase, hfin, hstack ▸ h.around i hi hi'⟩
  arrives := h.arrives
  placed := h.placed

namespace Segment

variable {id : RegionId} {outer : RegionStack} {fin : Bool} {a b : List Statement}

private theorem append (w : Walk code)
    (h₁ : Segment w id outer fin pos a)
    (h₂ : Segment w id outer fin (pos + a.length) b)
    (hle : pos + (a ++ b).length ≤ code.length) :
    Segment w id outer fin pos (a ++ b) := by
  rw [List.length_append, ← Nat.add_assoc] at hle
  constructor
  · rw [List.length_append, ← Nat.add_assoc]
    exact h₂.ends
  · intro i hi hi'
    rw [List.length_append] at hi'
    by_cases hlt : i < pos + a.length
    · exact h₁.held i hi hlt
    · exact h₂.held i (Nat.le_of_not_lt hlt) (by omega)
  · intro i hi hi'
    rw [List.length_append] at hi'
    by_cases hlt : i < pos + a.length
    · exact h₁.arrives i hi hlt
    · exact h₂.arrives i (Nat.le_of_not_lt hlt) (by omega)
  · intro id' r hid hr
    rw [List.length_append, ← Nat.add_assoc] at hr
    by_cases hlt : id' < (w.tracker (pos + a.length)).regions.length
    · refine h₁.placed id' r hid ?_
      obtain ⟨more, hmore⟩ := w.regions_le (Nat.le_add_right _ b.length) hle
      rwa [← hmore, List.getElem?_append_left hlt] at hr
    · exact h₂.placed id' r (Nat.le_of_not_lt hlt) hr

/-- A label at which the region enters a phase. -/
private theorem label {phase : Phase} (hfin : phase = .inFinally ↔ fin = true)
    (hstack : w.stack pos = (id, phase) :: outer)
    (hnext : w.tracker (pos + 1) = ⟨(w.tracker pos).regions, w.stack pos⟩)
    (harrives : marks (w.stack pos) = marks (w.tracker pos).stack ∨
      ∃ s, 0 < pos ∧ code[pos - 1]? = some s ∧ s.stops = true) :
    Segment w id outer fin pos [.label l] where
  ends := by
    rw [List.length_singleton, hnext]
    exact ⟨phase, hfin, hstack⟩
  held i hi hi' := by
    rw [Nat.le_antisymm (Nat.le_of_lt_succ hi') hi]
    exact ⟨phase, hfin, hstack ▸ List.suffix_refl _⟩
  arrives i hi hi' := by
    rw [Nat.le_antisymm (Nat.le_of_lt_succ hi') hi]
    exact harrives
  placed id' r hid hr := by
    rw [List.length_singleton, hnext] at hr
    exact absurd (List.getElem?_eq_some_iff.mp hr).1 (Nat.not_lt.mpr hid)

end Segment

/-- A region is found where its parts stand. -/
private theorem Walk.placed (w : Walk code) {c f : Option String} {e : String}
    {first last : Nat} (hopens : ∃ s, code[first]? = some s ∧ s.op = .enterTry)
    (hfirst : w.stack first = (w.tracker first).stack) (hstop : labelAt? code last = some e)
    (hlast : w.stack last = (w.tracker first).stack)
    (hnext : (w.tracker (last + 1)).stack = (w.tracker first).stack) (hlt : first < last)
    (hle : last < code.length)
    (hgrown : (w.tracker first).regions.length < (w.tracker (last + 1)).regions.length)
    (fin : Nat → Bool)
    (hheld : ∀ i, first < i → i < last → ∃ phase, (phase = .inFinally ↔ fin i = true) ∧
      ((w.tracker first).regions.length, phase) :: (w.tracker first).stack <:+ w.stack i)
    (hhandler : ∀ l, c = some l → ∃ j, labelAt? code j = some l ∧
      w.stack j = ((w.tracker first).regions.length, .inCatch) :: (w.tracker first).stack)
    (hmarked : ∀ l, f = some l → isPhaseMarker l = true)
    (hcleanup : ∀ l, f = some l → ∃ j, labelAt? code j = some l ∧
      w.stack j = ((w.tracker first).regions.length, .inFinally) :: (w.tracker first).stack ∧
      first < j ∧ j < last ∧ ∀ i, first < i → i < last → (fin i = true ↔ j ≤ i))
    (hnone : f = none → ∀ i, fin i = false) :
    RegionPlaced w (w.tracker first).regions.length
      ⟨(w.tracker first).stack, w.position first, c, f, e⟩ first last := by
  have hordered := w.ordered (Nat.le_of_lt (Nat.lt_trans hlt hle))
  have hold {phase : Phase} : ((w.tracker first).regions.length, phase) ∉ (w.tracker first).stack :=
    fun hx ↦ Nat.lt_irrefl _ (hordered.lt_length hx)
  have honly (i : Nat) (phase : Phase) (hi : i < code.length)
      (hx : ((w.tracker first).regions.length, phase) ∈ w.stack i) : first < i ∧ i < last := by
    constructor
    · by_contra hge
      have hlen := (w.regions_le (Nat.le_of_not_lt hge)
        (Nat.le_of_lt (Nat.lt_trans hlt hle))).length_le
      exact Nat.lt_irrefl _ (Nat.lt_of_lt_of_le ((w.linked hi).lt_length hx) hlen)
    · by_contra hge
      rcases Nat.lt_or_eq_of_le (Nat.le_of_not_lt hge) with hgt | rfl
      · exact w.not_mem_of_closed hgrown (fun phase ↦ hnext ▸ hold) hgt hi hx
      · rw [hlast] at hx
        exact hold hx
  have hphase (i : Nat) (phase : Phase) (hi : i < code.length)
      (hx : ((w.tracker first).regions.length, phase) ∈ w.stack i) :
      phase = .inFinally ↔ fin i = true := by
    obtain ⟨hlo, hhi⟩ := honly i phase hi hx
    obtain ⟨phase', hfin, inner, hinner⟩ := hheld i hlo hhi
    have hlinked := w.linked hi
    rw [← hinner] at hx hlinked
    rw [hlinked.phase_unique hx]
    exact hfin
  refine ⟨rfl, hopens, hfirst.symm, hstop, hhandler, hmarked, fun l hl ↦ ?_, fun hf i hi hx ↦ ?_,
    fun i hlo hhi ↦ ?_, honly⟩
  · obtain ⟨j, hj, hstack, hlo, hhi, hiff⟩ := hcleanup l hl
    refine ⟨j, hj, hstack, hlo, hhi, fun i phase hi hx ↦ ?_⟩
    obtain ⟨hlo', hhi'⟩ := honly i phase hi hx
    rw [hphase i phase hi hx, hiff i hlo' hhi']
  · have := (hphase i _ hi hx).mp rfl
    rw [hnone hf i] at this
    cases this
  · obtain ⟨phase, -, hsuffix⟩ := hheld i hlo hhi
    exact ⟨phase, hsuffix.mem List.mem_cons_self⟩

/-! ### Protected constructs -/

namespace RegionTracker

variable {t t' : RegionTracker} {id : RegionId} {phase : Phase} {outer S : RegionStack} {r : Region}

private theorem crossLabel_catch (hstack : t.stack = (id, phase) :: outer) (hr : t.region? id = some r)
    (hc : r.catchLabel = some l) (h : t.crossLabel l = .ok S) :
    phase = .inTry ∧ S = (id, .inCatch) :: outer := by
  simp only [crossLabel, hstack, hr, hc, BEq.rfl, if_pos] at h
  split at h <;> cases h
  next hphase => exact ⟨beq_iff_eq.mp hphase, rfl⟩

private theorem crossLabel_finally (hstack : t.stack = (id, phase) :: outer) (hr : t.region? id = some r)
    (hc : r.catchLabel ≠ some l) (hf : r.finallyLabel = some l) (h : t.crossLabel l = .ok S) :
    S = (id, .inFinally) :: outer := by
  simp only [crossLabel, hstack, hr, beq_eq_false_iff_ne.mpr hc, hf, BEq.rfl] at h
  simp only [Bool.false_eq_true, if_false, if_true] at h
  split at h <;> cases h
  rfl

private theorem crossLabel_end (hstack : t.stack = (id, phase) :: outer) (hr : t.region? id = some r)
    (hc : r.catchLabel ≠ some l) (hf : r.finallyLabel = none) (he : r.endLabel = l)
    (h : t.crossLabel l = .ok S) : S = outer := by
  simp only [crossLabel, hstack, hr, beq_eq_false_iff_ne.mpr hc, hf, he, BEq.rfl] at h
  simp only [Bool.false_eq_true, if_false, if_true, Option.isSome_none, reduceCtorEq,
    beq_iff_eq] at h
  cases h
  rfl

/-- Inside a region, too, the open regions belong to constructs with smaller numbers. -/
theorem Below.inside (h : t.Below n) (ht : t.Ordered) (hregions : t.regions <+: t'.regions)
    (hstack : t'.stack = (id, phase) :: t.stack) (hr : t'.region? id = some r)
    (hown : ∀ l, r.owns l = true → constructOf l = n) : t'.Below (n + 1) := by
  intro x hx r' hr' l hl
  rw [hstack] at hx
  rcases List.mem_cons.mp hx with rfl | hx
  · rw [hr] at hr'
    cases hr'
    rw [hown l hl]
    exact Nat.lt_succ_self n
  · obtain ⟨more, hmore⟩ := hregions
    rw [region?, ← hmore, List.getElem?_append_left (ht.lt_length hx)] at hr'
    exact Nat.lt_succ_of_lt (h x hx r' hr' l hl)

/-- In the region of a construct none of the open regions owns another label of the construct. -/
theorem Below.disowns_inside (h : t.Below n) (ht : t.Ordered) (hregions : t.regions <+: t'.regions)
    (hstack : t'.stack = (id, phase) :: t.stack) (hr : t'.region? id = some r)
    (hl : constructOf l = n) (hown : r.owns l = false) : t'.Disowns l := by
  intro x hx r' hr'
  rw [hstack] at hx
  rcases List.mem_cons.mp hx with rfl | hx
  · rw [hr] at hr'
    cases hr'
    exact hown
  · obtain ⟨more, hmore⟩ := hregions
    rw [region?, ← hmore, List.getElem?_append_left (ht.lt_length hx)] at hr'
    exact h.disowns (Nat.le_of_eq hl.symm) x hx r' hr'

end RegionTracker

/-- The `try` of a protected construct opens a region with its labels. -/
theorem Walk.of_try (w : Walk code) {c f : Option String} {e : String}
    {rest : List Statement}
    (hat : CodeAt code pos (.of .enterTry [Lowering.optionalLabel c, Lowering.optionalLabel f,
      .label e] :: rest)) :
    w.stack pos = (w.tracker pos).stack ∧ w.tracker (pos + 1) =
      ⟨(w.tracker pos).regions ++ [⟨(w.tracker pos).stack, w.position pos, c, f, e⟩],
        ((w.tracker pos).regions.length, .inTry) :: (w.tracker pos).stack⟩ := by
  have hsteps := w.steps hat.head
  generalize w.stack pos = S, w.tracker (pos + 1) = t' at hsteps ⊢
  cases hsteps with
  | plain _ hopen => exact absurd rfl hopen
  | crosses hl => cases hl
  | @opens r _ hopen =>
    refine ⟨rfl, ?_⟩
    have hr : r = ⟨(w.tracker pos).stack, w.position pos, c, f, e⟩ := by
      cases c <;> cases f <;> cases hopen <;> rfl
    rw [hr]
  | closes hop => cases hop

/-- Control cannot be behind closed code. -/
private theorem stops_of_closed (hat : CodeAt code pos part) (hclosed : Closed part) :
    ∃ s, 0 < pos + part.length ∧ code[pos + part.length - 1]? = some s ∧ s.stops = true := by
  cases hlast : part.getLast? with
  | none =>
    rw [Closed, hlast] at hclosed
    cases hclosed
  | some s =>
    rw [Closed, hlast] at hclosed
    have hpos : 0 < part.length := by
      cases part with
      | nil => cases hlast
      | cons => exact Nat.succ_pos _
    refine ⟨s, by omega, ?_, ?_⟩
    · rw [List.getLast?_eq_getElem?] at hlast
      rw [← hlast, ← hat (part.length - 1) (by omega), Nat.add_sub_assoc hpos]
    · rw [Statement.stops]
      exact Bool.or_eq_true_iff.mpr (.inl hclosed)

section Protect

variable {c f : Option String} {e : String} {body handler cleanup : List Statement}
  {targets near own clauses : List String} {id : RegionId} {outer : RegionStack} {phase : Phase}
  {r : Region}

/-- The handler of a region, if there is one. -/
private theorem Walk.handlerPart (w : Walk code)
    (hstack : (w.tracker pos).stack = (id, .inTry) :: outer) (hr : (w.tracker pos).region? id = some r)
    (hc : r.catchLabel = c) (hat : CodeAt code pos (c.elim [] fun c ↦ .label c :: handler))
    (hle : pos + (c.elim [] fun c ↦ .label c :: handler).length ≤ code.length)
    (hsettled : c.isSome → w.tracker (pos + 1) = ⟨(w.tracker pos).regions, (id, .inCatch) :: outer⟩ →
      Settled w sealed pool targets near own (pos + 1) handler) :
    Segment w id outer false pos
        (c.elim [] fun c ↦ .label c :: handler) ∧
      ∀ l, c = some l → labelAt? code pos = some l ∧ w.stack pos = (id, .inCatch) :: outer ∧
        w.tracker (pos + 1) = ⟨(w.tracker pos).regions, (id, .inCatch) :: outer⟩ := by
  cases c with
  | none =>
    have hnil : Settled w sealed pool targets near [] pos [] := .nil
    exact ⟨hnil.segment hstack (by decide), by nofun⟩
  | some l =>
    have hlabel := hat.labelAt
    obtain ⟨hcross, hnext⟩ := w.of_label hlabel
    obtain ⟨-, hstack'⟩ := RegionTracker.crossLabel_catch hstack hr hc hcross
    have hnext' := hstack' ▸ hnext
    have hhandler := hsettled rfl hnext'
    have hmarks : marks (w.stack pos) = marks (w.tracker pos).stack := by
      rw [hstack', hstack]
      rfl
    have hfin : Phase.inCatch = .inFinally ↔ false = true := by decide
    refine ⟨?_, fun l' hl ↦ ?_⟩
    · refine (Segment.label hfin hstack' hnext (.inl hmarks)).append w
        (hhandler.segment ?_ hfin) hle
      rw [hnext']
    · cases hl
      exact ⟨hlabel, hstack', hnext'⟩

/-- The cleanup of a region, up to its `endfinally`. -/
private theorem Walk.cleanupPart (w : Walk code)
    (hstack : (w.tracker pos).stack = (id, phase) :: outer) (hr : (w.tracker pos).region? id = some r)
    (hc : r.catchLabel ≠ some l) (hf : r.finallyLabel = some l)
    (hat : CodeAt code pos (Statement.label l :: (cleanup ++ [Statement.of .endFinally []])))
    (hle : pos + (cleanup.length + 2) ≤ code.length)
    (hstops : ∃ s, 0 < pos ∧ code[pos - 1]? = some s ∧ s.stops = true)
    (hsettled : w.tracker (pos + 1) = ⟨(w.tracker pos).regions, (id, .inFinally) :: outer⟩ →
      Settled w sealed pool targets near [] (pos + 1) cleanup) :
    Segment w id outer true pos (.label l :: cleanup) ∧
      w.stack pos = (id, .inFinally) :: outer ∧
      w.tracker (pos + 1) = ⟨(w.tracker pos).regions, (id, .inFinally) :: outer⟩ ∧
      w.stack (pos + 1 + cleanup.length) = (id, .inFinally) :: outer ∧
      (w.tracker (pos + 1 + cleanup.length)).stack = (id, .inFinally) :: outer ∧
      w.tracker (pos + 1 + cleanup.length + 1) =
        ⟨(w.tracker (pos + 1 + cleanup.length)).regions, outer⟩ := by
  obtain ⟨hcross, hnext⟩ := w.of_label hat.labelAt
  have hstack' := RegionTracker.crossLabel_finally hstack hr hc hf hcross
  have hnext' := hstack' ▸ hnext
  have hcleanup := hsettled hnext'
  have hend := hcleanup.balanced
  rw [hnext'] at hend
  have hfin : Phase.inFinally = .inFinally ↔ true = true := by decide
  have hsegment := (Segment.label (l := l) hfin hstack' hnext (.inr hstops)).append w
    (hcleanup.segment (by rw [hnext']) hfin)
    (by rw [List.length_append, List.length_singleton]; omega)
  refine ⟨hsegment, hstack', hnext', ?_⟩
  have hsteps := w.steps hat.tail.right.head
  generalize w.stack (pos + 1 + cleanup.length) = S, w.tracker (pos + 1 + cleanup.length + 1) = t'
    at hsteps ⊢
  cases hsteps with
  | plain _ _ hclose => exact absurd rfl hclose
  | crosses hl => cases hl
  | opens hop => cases hop
  | closes _ hclose =>
    rw [hend] at hclose
    cases hclose
    exact ⟨hend, hend, rfl⟩

/-- What follows the handler of a region: its cleanup, if there is one, and its end label. -/
structure Tail {code : List Statement} (w : Walk code) (sealed : Bool) (pool : List Value)
    (targets : List String)
    (id : RegionId) (outer : RegionStack) (f : Option String) (e : String) (pos last : Nat) :
    Prop where
  stop : labelAt? code last = some e
  stack_last : w.stack last = outer
  next : w.tracker (last + 1) = ⟨(w.tracker last).regions, outer⟩
  held : ∀ i, pos ≤ i → i < last → (id, .inFinally) :: outer <:+ w.stack i
  label : ∀ l, f = some l →
    labelAt? code pos = some l ∧ w.stack pos = (id, .inFinally) :: outer ∧ pos < last
  no_cleanup : f = none → pos = last
  arrives : ∀ i, pos ≤ i → i ≤ last → marks (w.stack i) = marks (w.tracker i).stack ∨
    ∃ s, 0 < i ∧ code[i - 1]? = some s ∧ s.stops = true
  placed : ∀ id' r, (w.tracker pos).regions.length ≤ id' →
    (w.tracker last).regions[id']? = some r → ∃ first last, RegionPlaced w id' r first last
  leads : (∀ l ∈ targets, w.Reaches sealed outer l) → ∀ i s, pos ≤ i → i ≤ last → code[i]? = some s →
    Leads w sealed pool i s

private theorem leads_of_not_branch {s : Statement} {i : Nat} (h : s.op.isBranch = false)
    (h' : s.op ≠ .switch) : Leads w sealed pool i s where
  branch l hl := by
    rw [Statement.target?, h] at hl
    cases hl
  conditional _ l hl := by
    rw [Statement.target?, h] at hl
    cases hl
  switch hop := absurd hop h'

/-- Without a cleanup, the end label closes the region. -/
private theorem Walk.tail_none (w : Walk code) (hstack : (w.tracker pos).stack = (id, phase) :: outer)
    (hr : (w.tracker pos).region? id = some r) (hc : r.catchLabel ≠ some e)
    (hf : r.finallyLabel = none) (he : r.endLabel = e) (hat : CodeAt code pos [.label e])
    (hstops : ∃ s, 0 < pos ∧ code[pos - 1]? = some s ∧ s.stops = true) :
    Tail w sealed pool targets id outer none e pos pos := by
  obtain ⟨hcross, hnext⟩ := w.of_label hat.labelAt
  have hlast := RegionTracker.crossLabel_end hstack hr hc hf he hcross
  refine ⟨hat.labelAt, hlast, hlast ▸ hnext, fun i hi hi' ↦ absurd hi' (Nat.not_lt.mpr hi), nofun,
    fun _ ↦ rfl, fun i hi hi' ↦ ?_, fun id' r hid hr ↦ ?_, fun _ i s hi hi' hs ↦ ?_⟩
  · rw [Nat.le_antisymm hi' hi]
    exact .inr hstops
  · exact absurd (List.getElem?_eq_some_iff.mp hr).1 (Nat.not_lt.mpr hid)
  · rw [Nat.le_antisymm hi' hi, hat.head] at hs
    cases hs
    exact leads_of_not_branch rfl nofun

/-- With a cleanup, its `endfinally` closes the region. -/
private theorem Walk.tail_some (w : Walk code) (hstack : (w.tracker pos).stack = (id, phase) :: outer)
    (hr : (w.tracker pos).region? id = some r) (hc : r.catchLabel ≠ some l)
    (hf : r.finallyLabel = some l)
    (hat : CodeAt code pos ((Statement.label l :: (cleanup ++ [Statement.of .endFinally []])) ++
      [Statement.label e]))
    (hle : pos + (cleanup.length + 3) ≤ code.length)
    (hstops : ∃ s, 0 < pos ∧ code[pos - 1]? = some s ∧ s.stops = true)
    (hsettled : w.tracker (pos + 1) = ⟨(w.tracker pos).regions, (id, .inFinally) :: outer⟩ →
      Settled w sealed pool (if sealed then [] else targets) [] [] (pos + 1) cleanup)
    (hdisowns : ∀ p, pos ≤ p → p ≤ code.length → (w.tracker p).stack = outer →
      (w.tracker p).Disowns e) :
    Tail w sealed pool targets id outer (some l) e pos (pos + 1 + cleanup.length + 1) := by
  obtain ⟨hsegment, hlabel, hnext, hclose, hclose', hafter⟩ :=
    w.cleanupPart hstack hr hc hf hat.left (by omega) hstops hsettled
  have hcleanup := hsettled hnext
  have hend : CodeAt code (pos + 1 + cleanup.length + 1) [.label e] := by
    have := hat.right
    rwa [List.length_cons, List.length_append, List.length_singleton,
      show pos + (cleanup.length + 1 + 1) = pos + 1 + cleanup.length + 1 by omega] at this
  have hendFinally : code[pos + 1 + cleanup.length]? = some (.of .endFinally []) :=
    hat.left.tail.right.head
  have hstack' : (w.tracker (pos + 1 + cleanup.length + 1)).stack = outer := by rw [hafter]
  obtain ⟨hlast, hlast'⟩ := w.of_disowned hend.labelAt
    (hdisowns _ (by omega) (by omega) hstack')
  have hseglen : pos + (Statement.label l :: cleanup).length = pos + 1 + cleanup.length := by
    rw [List.length_cons]
    omega
  constructor
  · exact hend.labelAt
  · rw [hlast, hstack']
  · rw [hlast', hafter]
  · intro i hi hi'
    rcases Nat.lt_or_eq_of_le (Nat.le_of_lt_succ hi') with hlt | rfl
    · obtain ⟨phase', hphase, hsuffix⟩ := hsegment.held i hi (by omega)
      rwa [hphase.mpr rfl] at hsuffix
    · exact hclose ▸ List.suffix_refl _
  · intro l' hl
    cases hl
    exact ⟨hat.left.labelAt, hlabel, by omega⟩
  · rintro ⟨⟩
  · intro i hi hi'
    rcases Nat.lt_or_ge i (pos + 1 + cleanup.length) with hlt | hge
    · exact hsegment.arrives i hi (by omega)
    · rcases Nat.lt_or_eq_of_le hge with hgt | rfl
      · rw [Nat.le_antisymm hi' hgt, hlast]
        exact .inl rfl
      · rw [hclose, hclose']
        exact .inl rfl
  · intro id' r' hid hr'
    rw [hafter] at hr'
    exact hsegment.placed id' r' hid (by rwa [hseglen])
  · intro htargets i s hi hi' hs
    rcases Nat.lt_or_eq_of_le hi with hgt | rfl
    · rcases Nat.lt_or_ge i (pos + 1 + cleanup.length) with hlt | hge
      · refine hcleanup.leads (fun l hl ↦ ?_) (List.forall_mem_nil _) i s hgt hlt hs
        rw [hnext]
        cases sealed with
        | true => cases hl
        | false => exact (htargets l hl).cons (by rintro ⟨⟩)
      · rcases Nat.lt_or_eq_of_le hge with hgt | rfl
        · rw [Nat.le_antisymm hi' hgt, hend.head] at hs
          cases hs
          exact leads_of_not_branch rfl (by rintro ⟨⟩)
        · rw [hendFinally] at hs
          cases hs
          exact leads_of_not_branch rfl (by rintro ⟨⟩)
    · rw [hat.left.head] at hs
      cases hs
      exact leads_of_not_branch rfl (by rintro ⟨⟩)

/-- The `try` of a protected construct with its body and its handler, up to position `mid`. -/
structure Front {code : List Statement} (w : Walk code) (sealed : Bool) (pool : List Value)
    (targets : List String)
    (c f : Option String) (e : String) (pos mid : Nat) : Prop where
  lt : pos < mid
  opens : ∃ s, code[pos]? = some s ∧ s.op = .enterTry
  first : w.stack pos = (w.tracker pos).stack
  region : ∀ p, pos < p → p ≤ code.length → (w.tracker p).region? (w.tracker pos).regions.length =
    some ⟨(w.tracker pos).stack, w.position pos, c, f, e⟩
  held : ∀ i, pos < i → i < mid → ∃ phase, phase ≠ .inFinally ∧
    ((w.tracker pos).regions.length, phase) :: (w.tracker pos).stack <:+ w.stack i
  ends : ∃ phase, (w.tracker mid).stack =
    ((w.tracker pos).regions.length, phase) :: (w.tracker pos).stack
  label : ∀ l, c = some l → ∃ j, labelAt? code j = some l ∧
    w.stack j = ((w.tracker pos).regions.length, .inCatch) :: (w.tracker pos).stack
  stops : ∃ s, 0 < mid ∧ code[mid - 1]? = some s ∧ s.stops = true
  arrives : ∀ i, pos ≤ i → i < mid → marks (w.stack i) = marks (w.tracker i).stack ∨
    ∃ s, 0 < i ∧ code[i - 1]? = some s ∧ s.stops = true
  placed : ∀ id r, (w.tracker pos).regions.length < id → (w.tracker mid).regions[id]? = some r →
    ∃ first last, RegionPlaced w id r first last
  leads : (∀ l ∈ e :: targets, w.Reaches sealed (w.tracker pos).stack l) →
    ∀ i s, pos ≤ i → i < mid → code[i]? = some s → Leads w sealed pool i s

/-- A protected construct, from its two halves. -/
private theorem Front.settled {mid last : Nat} (h : Front w sealed pool targets c f e pos mid)
    (ht : Tail w sealed pool targets (w.tracker pos).regions.length (w.tracker pos).stack f e mid last)
    (he : isPhaseMarker e = false) (hmarked : ∀ l, f = some l → isPhaseMarker l = true)
    (hmid : mid ≤ last) (hlen : pos + part.length = last + 1) (hle : last < code.length) :
    Settled w sealed pool targets near [] pos part := by
  have hgrown : (w.tracker pos).regions.length < (w.tracker (last + 1)).regions.length := by
    have := h.region (last + 1) (by have := h.lt; omega) hle
    exact (List.getElem?_eq_some_iff.mp this).1
  have hnext : (w.tracker (last + 1)).stack = (w.tracker pos).stack := by rw [ht.next]
  constructor
  · rw [hlen, hnext]
  · intro i hi hi'
    rcases Nat.lt_or_eq_of_le hi with hgt | rfl
    · rcases Nat.lt_or_ge i mid with hlt | hge
      · obtain ⟨phase, -, hsuffix⟩ := h.held i hgt hlt
        exact (List.suffix_cons _ _).trans hsuffix
      · rcases Nat.lt_or_eq_of_le (show i ≤ last by omega) with hlt | rfl
        · exact (List.suffix_cons _ _).trans (ht.held i hge hlt)
        · exact ht.stack_last ▸ List.suffix_refl _
    · exact h.first ▸ List.suffix_refl _
  · exact List.forall_mem_nil _
  · intro htargets _ i s hi hi' hs
    rcases Nat.lt_or_ge i mid with hlt | hge
    · have hend : w.Stays (w.tracker pos).stack e := ⟨he, last, ht.stop, ht.stack_last⟩
      exact h.leads (List.forall_mem_cons.mpr ⟨hend.reaches, htargets⟩) i s hi hlt hs
    · exact ht.leads htargets i s hge (by omega) hs
  · intro i hi hi'
    rcases Nat.lt_or_ge i mid with hlt | hge
    · exact h.arrives i hi hlt
    · exact ht.arrives i hge (by omega)
  · intro id r hid hr
    rw [hlen, ht.next] at hr
    rcases Nat.lt_or_eq_of_le hid with hgt | rfl
    · rcases Nat.lt_or_ge id (w.tracker mid).regions.length with hlt | hge
      · obtain ⟨more, hmore⟩ := w.regions_le hmid (Nat.le_of_lt hle)
        refine h.placed id r hgt ?_
        rwa [← hmore, List.getElem?_append_left hlt] at hr
      · exact ht.placed id r hge hr
    · have hregion := h.region last (Nat.lt_of_lt_of_le h.lt hmid) (Nat.le_of_lt hle)
      rw [RegionTracker.region?, hr] at hregion
      cases hregion
      refine ⟨pos, last, w.placed h.opens h.first ht.stop ht.stack_last hnext
        (Nat.lt_of_lt_of_le h.lt hmid) hle hgrown (fun i ↦ f.isSome && decide (mid ≤ i)) ?_
        h.label hmarked ?_ ?_⟩
      · intro i hi hi'
        rcases Nat.lt_or_ge i mid with hlt | hge
        · obtain ⟨phase, hphase, hsuffix⟩ := h.held i hi hlt
          refine ⟨phase, ?_, hsuffix⟩
          simp [hphase, Nat.not_le.mpr hlt]
        · refine ⟨.inFinally, ?_, ht.held i hge hi'⟩
          have hsome : f.isSome = true := by
            cases f with
            | none =>
              have := ht.no_cleanup rfl
              omega
            | some l => rfl
          simp [hsome, hge]
      · intro l hl
        obtain ⟨hlabel, hstack, hlt⟩ := ht.label l hl
        refine ⟨mid, hlabel, hstack, h.lt, hlt, fun i _ _ ↦ ?_⟩
        simp [hl]
      · rintro rfl i
        rfl

/-- The labels of the region of a protected construct. -/
theorem owns_iff {start : Nat} :
    Region.owns ⟨outer, start, c, f, e⟩ l = true ↔ l ∈ c.toList ++ (f.toList ++ [e]) := by
  simp only [Region.owns, Bool.or_eq_true, beq_iff_eq, List.mem_append, Option.mem_toList,
    List.mem_singleton, or_assoc]
  rw [eq_comm (a := e)]

private theorem Walk.front (w : Walk code)
    (hat : CodeAt code pos (.of .enterTry [Lowering.optionalLabel c, Lowering.optionalLabel f,
      .label e] :: (body ++ c.elim [] fun c ↦ .label c :: handler)))
    (hle : pos + 1 + body.length + (c.elim [] fun c ↦ .label c :: handler).length ≤ code.length)
    (hbelow : (w.tracker pos).Below n) (hn : ∀ l ∈ c.toList ++ (f.toList ++ [e]), constructOf l = n)
    (hclauses : ∀ l ∈ clauses, constructOf l = n ∧ l ∉ c.toList ++ (f.toList ++ [e]))
    (hplain : ∀ l ∈ clauses, isPhaseMarker l = false)
    (hclosed : Closed body) (hclosed' : c.isSome → Closed handler)
    (hbody : (w.tracker (pos + 1)).Below (n + 1) →
      Settled w sealed pool (e :: targets) [] [] (pos + 1) body)
    (hown : ∀ l ∈ clauses, l ∈ own)
    (hhandler : ∀ p, CodeAt code p handler → p + handler.length ≤ code.length →
      (w.tracker p).Below (n + 1) → (∀ l ∈ clauses, (w.tracker p).Disowns l) →
      Settled w sealed pool (clauses ++ e :: targets) clauses own p handler) :
    Front w sealed pool targets c f e pos
      (pos + 1 + body.length + (c.elim [] fun c ↦ .label c :: handler).length) := by
  obtain ⟨hfirst, htry⟩ := w.of_try hat
  have hordered := w.ordered (i := pos) (by omega)
  have hregion (p : Nat) (hp : pos < p) (hp' : p ≤ code.length) :
      (w.tracker p).region? (w.tracker pos).regions.length =
        some ⟨(w.tracker pos).stack, w.position pos, c, f, e⟩ := by
    obtain ⟨more, hmore⟩ := w.regions_le hp hp'
    rw [RegionTracker.region?, ← hmore, htry]
    simp
  have hinside (p : Nat) (phase : Phase) (hp : pos < p) (hp' : p ≤ code.length)
      (hstack : (w.tracker p).stack = ((w.tracker pos).regions.length, phase) ::
        (w.tracker pos).stack) : (w.tracker p).Below (n + 1) :=
    hbelow.inside hordered (w.regions_le (Nat.le_of_lt hp) hp') hstack (hregion p hp hp')
      fun l hl ↦ hn l (owns_iff.mp hl)
  have hdisowns (p : Nat) (phase : Phase) (hp : pos < p) (hp' : p ≤ code.length)
      (hstack : (w.tracker p).stack = ((w.tracker pos).regions.length, phase) ::
        (w.tracker pos).stack) (l : String) (hl : l ∈ clauses) : (w.tracker p).Disowns l := by
    refine hbelow.disowns_inside hordered (w.regions_le (Nat.le_of_lt hp) hp') hstack
      (hregion p hp hp') (hclauses l hl).1 ?_
    rw [← Bool.not_eq_true, owns_iff]
    exact (hclauses l hl).2
  have hstart : (w.tracker (pos + 1)).stack =
      ((w.tracker pos).regions.length, .inTry) :: (w.tracker pos).stack := by rw [htry]
  have hbody := hbody (hinside _ _ (Nat.lt_succ_self _) (by omega) hstart)
  have hmiddle := hbody.balanced.trans hstart
  have hatHandler := hat.tail.right
  have hhandler (hc : c.isSome) (hnext : w.tracker (pos + 1 + body.length + 1) =
      ⟨(w.tracker (pos + 1 + body.length)).regions,
        ((w.tracker pos).regions.length, .inCatch) :: (w.tracker pos).stack⟩) :
      CodeAt code (pos + 1 + body.length + 1) handler ∧
      pos + 1 + body.length + (c.elim [] fun c ↦ .label c :: handler).length =
        pos + 1 + body.length + 1 + handler.length ∧
      Settled w sealed pool (clauses ++ e :: targets) clauses own (pos + 1 + body.length + 1) handler := by
    obtain ⟨l, rfl⟩ := Option.isSome_iff_exists.mp hc
    simp only [Option.elim_some, List.length_cons] at hle hatHandler ⊢
    have hstack := congrArg RegionTracker.stack hnext
    exact ⟨hatHandler.tail, by omega, hhandler _ hatHandler.tail (by omega)
      (hinside _ _ (by omega) (by omega) hstack) (hdisowns _ _ (by omega) (by omega) hstack)⟩
  obtain ⟨hsegment', hlabel⟩ := w.handlerPart (c := c) hmiddle
    (hregion _ (by omega) (by omega)) rfl hatHandler hle fun hc hnext ↦ (hhandler hc hnext).2.2
  have hsegment := (hbody.segment hstart
    (show Phase.inTry = .inFinally ↔ false = true by decide)).append w hsegment'
    (by rw [List.length_append]; omega)
  have hmid : pos + 1 + (body ++ c.elim [] fun c ↦ Statement.label c :: handler).length =
      pos + 1 + body.length + (c.elim [] fun c ↦ .label c :: handler).length := by
    rw [List.length_append, Nat.add_assoc _ body.length]
  obtain ⟨hends, hheld, harrives, hplaced⟩ := hsegment
  rw [hmid] at hends hheld harrives hplaced
  constructor
  · omega
  · exact ⟨_, hat.head, rfl⟩
  · exact hfirst
  · exact hregion
  · intro i hi hi'
    obtain ⟨phase, hphase, hsuffix⟩ := hheld i hi hi'
    exact ⟨phase, fun hfin ↦ Bool.false_ne_true (hphase.mp hfin), hsuffix⟩
  · obtain ⟨phase, -, hstack⟩ := hends
    exact ⟨phase, hstack⟩
  · intro l hl
    obtain ⟨hat, hstack, -⟩ := hlabel l hl
    exact ⟨_, hat, hstack⟩
  · cases c with
    | none =>
      have hstops := stops_of_closed hat.tail.left hclosed
      exact hstops
    | some l =>
      obtain ⟨-, -, hnext⟩ := hlabel l rfl
      obtain ⟨hat, hlen, -⟩ := hhandler rfl hnext
      rw [hlen]
      exact stops_of_closed hat (hclosed' rfl)
  · intro i hi hi'
    rcases Nat.lt_or_eq_of_le hi with hgt | rfl
    · exact harrives i hgt hi'
    · rw [hfirst]
      exact .inl rfl
  · intro id r hid hr
    apply hplaced id r _ hr
    rw [htry, List.length_append]
    exact hid
  · intro htargets i s hi hi' hs
    rcases Nat.lt_or_eq_of_le hi with hgt | rfl
    · rcases Nat.lt_or_ge i (pos + 1 + body.length) with hlt | hge
      · refine hbody.leads (fun l hl ↦ ?_) (List.forall_mem_nil _) i s hgt hlt hs
        rw [hstart]
        exact (htargets l hl).cons fun _ ↦ by rintro ⟨⟩
      · cases c with
        | none => exact absurd hi' (Nat.not_lt.mpr hge)
        | some l =>
          obtain ⟨-, -, hnext⟩ := hlabel l rfl
          obtain ⟨-, hlen, hhandler⟩ := hhandler rfl hnext
          rcases Nat.lt_or_eq_of_le hge with hgt | rfl
          · have hstays (l : String) (hl : l ∈ clauses) :
                w.Stays (w.tracker (pos + 1 + body.length + 1)).stack l :=
              ⟨hplain l hl, hhandler.own l (hown l hl)⟩
            refine hhandler.leads (List.forall_mem_append.mpr
              ⟨fun l hl ↦ (hstays l hl).reaches, fun l hl ↦ ?_⟩) hstays i s hgt (by omega) hs
            rw [hnext]
            exact (htargets l hl).cons fun _ ↦ by rintro ⟨⟩
          · rw [hatHandler.head] at hs
            cases hs
            exact leads_of_not_branch rfl (by rintro ⟨⟩)
    · rw [hat.head] at hs
      cases hs
      exact leads_of_not_branch rfl (by rintro ⟨⟩)

/-- A protected construct, from what is found in its parts. -/
private theorem Walk.protect (w : Walk code)
    (hat : CodeAt code pos (protectedCode c f e body handler cleanup))
    (hle : pos + (protectedCode c f e body handler cleanup).length ≤ code.length)
    (hbelow : (w.tracker pos).Below n)
    (hlabels : ConstructLabels n (c.toList ++ f.toList) (e :: clauses))
    (hclosed : Closed body) (hclosed' : c.isSome → Closed handler)
    (hbody : ∀ p, CodeAt code p body → p + body.length ≤ code.length →
      (w.tracker p).Below (n + 1) → Settled w sealed pool (e :: targets) [] [] p body)
    (hown : ∀ l ∈ clauses, l ∈ own)
    (hhandler : ∀ p, CodeAt code p handler → p + handler.length ≤ code.length →
      (w.tracker p).Below (n + 1) → (∀ l ∈ clauses, (w.tracker p).Disowns l) →
      Settled w sealed pool (clauses ++ e :: targets) clauses own p handler)
    (hcleanup : ∀ p, CodeAt code p cleanup → p + cleanup.length ≤ code.length →
      (w.tracker p).Below (n + 1) →
      Settled w sealed pool (if sealed then [] else targets) [] [] p cleanup) :
    Settled w sealed pool targets near [] pos (protectedCode c f e body handler cleanup) := by
  have hsplit : protectedCode c f e body handler cleanup =
      (.of .enterTry [Lowering.optionalLabel c, Lowering.optionalLabel f, .label e] ::
        (body ++ c.elim [] fun c ↦ .label c :: handler)) ++
      (f.elim [] (fun f ↦ Statement.label f :: (cleanup ++ [Statement.of .endFinally []])) ++
        [Statement.label e]) := by
    simp only [protectedCode, List.cons_append, List.append_assoc]
  rw [hsplit] at hat hle ⊢
  have hatTail := hat.right
  simp only [List.length_append, List.length_cons, List.length_nil] at hle hatTail
  obtain ⟨hnodup, hn, hmarked, hplain⟩ := hlabels
  have hlabels : (c.toList ++ f.toList) ++ e :: clauses =
      (c.toList ++ (f.toList ++ [e])) ++ clauses := by simp
  rw [hlabels] at hnodup hn
  rw [List.forall_mem_cons] at hplain
  have hmarked (l : String) (hl : f = some l) : isPhaseMarker l = true :=
    hmarked l (List.mem_append_right _ (Option.mem_toList.mpr hl))
  have hdisjoint := List.disjoint_of_nodup_append hnodup
  have hfront : Front w sealed pool targets c f e pos _ := w.front hat.left (by omega) hbelow
    (fun l hl ↦ hn l (List.mem_append_left _ hl))
    (fun l hl ↦ ⟨hn l (List.mem_append_right _ hl), fun hl' ↦ hdisjoint hl' hl⟩) hplain.2 hclosed hclosed'
    (hbody (pos + 1) hat.left.tail.left (by omega)) hown hhandler
  rw [show pos + (body.length + (c.elim [] fun c ↦ Statement.label c :: handler).length + 1) =
    pos + 1 + body.length + (c.elim [] fun c ↦ Statement.label c :: handler).length by omega]
    at hatTail
  generalize hmid : pos + 1 + body.length +
    (c.elim [] fun c ↦ Statement.label c :: handler).length = mid at hfront hatTail
  have hnodup' := hnodup.of_append_left
  obtain ⟨phase, hstack⟩ := hfront.ends
  have hregion := hfront.region _ hfront.lt (by omega)
  have hregions := w.regions_le (Nat.le_of_lt hfront.lt) (by omega)
  cases f with
  | none =>
    have hce : c ≠ some e := by
      rintro rfl
      simp at hnodup'
    have htail : Tail w sealed pool targets _ _ none e _ _ :=
      w.tail_none hstack hregion hce rfl rfl hatTail hfront.stops
    refine hfront.settled htail hplain.1 hmarked (Nat.le_refl _) ?_ ?_ <;> simp at hle ⊢ <;> omega
  | some l =>
    have hcl : c ≠ some l := by
      rintro rfl
      simp at hnodup'
    simp only [Option.elim_some, List.length_cons, List.length_append, List.length_nil] at hle
    have hdisowns (p : Nat) (hp : mid ≤ p) (hp' : p ≤ code.length)
        (hstack : (w.tracker p).stack = (w.tracker pos).stack) : (w.tracker p).Disowns e := by
      have hresumes := w.resumes (Nat.le_trans (Nat.le_of_lt hfront.lt) hp) hp' hstack
      exact (hresumes.below hbelow).disowns (Nat.le_of_eq (hn e (by simp)).symm)
    have htail : Tail w sealed pool targets _ _ (some l) e _ _ :=
      w.tail_some hstack hregion hcl rfl hatTail (by omega) hfront.stops
        (fun hnext ↦ hcleanup _ hatTail.left.tail.left (by omega)
          (hbelow.inside (w.ordered (by omega)) (by rw [hnext]; exact hregions)
            (congrArg RegionTracker.stack hnext) (hfront.region _ (by omega) (by omega))
            fun l hl ↦ hn l (List.mem_append_left _ (owns_iff.mp hl)))) hdisowns
    refine hfront.settled htail hplain.1 hmarked (by omega) ?_ (by omega)
    simp only [Option.elim_some, List.length_append, List.length_cons, List.length_nil]
    omega

end Protect

/-! ### Laid out code -/

/-- A walk over laid out code finds it settled. -/
theorem Laid.settled (w : Walk code) {targets near own : List String} {lo hi : Nat}
    (h : Laid sealed pool targets near lo hi own part) (hat : CodeAt code pos part)
    (hle : pos + part.length ≤ code.length) (hbelow : (w.tracker pos).Below lo)
    (hown : ∀ l ∈ own, (w.tracker pos).Disowns l) :
    Settled w sealed pool targets near own pos part := by
  induction h generalizing pos with
  | nil => exact .nil
  | @append targets near own own' lo mid hi a b ha hb iha ihb =>
    have hlen : pos + (a ++ b).length = pos + a.length + b.length := by
      rw [List.length_append, Nat.add_assoc]
    have hfirst := iha hat.left (by omega) hbelow fun l hl ↦ hown l (List.mem_append_left _ hl)
    have hresumes := w.resumes (Nat.le_add_right pos a.length) (by omega) hfirst.balanced
    obtain ⟨fresh, hfresh⟩ := ha.freshLabels
    exact hfirst.append w (ihb hat.right (by omega) (hresumes.below (hbelow.mono hfresh.le))
      fun l hl ↦ hresumes.disowns (hown l (List.mem_append_right _ hl))) hle
  | @statement _ _ _ s hs =>
    have hbranch : s.op.isBranch = false := by
      revert hs
      cases s.op <;> decide
    have hplain : s.op ≠ .label ∧ s.op ≠ .enterTry ∧ s.op ≠ .endFinally ∧ s.op ≠ .switch := by
      revert hs
      cases s.op <;> decide
    have htarget (l : String) : s.target? ≠ some l := by
      rw [Statement.target?, hbranch]
      rintro ⟨⟩
    obtain ⟨hstack, hnext⟩ := w.of_plain hat.head hplain.1 hplain.2.1 hplain.2.2.1
    exact .single hat.head hstack hnext (List.forall_mem_nil _) (fun l hl ↦ absurd hl (htarget l))
      (fun _ l hl ↦ absurd hl (htarget l)) fun hop ↦ absurd hop hplain.2.2.2
  | @branch _ _ _ s l hs htarget hl hnear =>
    have hplain : s.op ≠ .label ∧ s.op ≠ .enterTry ∧ s.op ≠ .endFinally ∧ s.op ≠ .switch := by
      revert hs
      cases s.op <;> decide
    obtain ⟨hstack, hnext⟩ := w.of_plain hat.head hplain.1 hplain.2.1 hplain.2.2.1
    have honly (l' : String) (hl' : s.target? = some l') : l' = l :=
      Option.some.inj (hl'.symm.trans htarget)
    exact .single hat.head hstack hnext (List.forall_mem_nil _) (fun l' hl' ↦ honly l' hl' ▸ hl)
      (fun hop l' hl' ↦ honly l' hl' ▸ hnear hop) fun hop ↦ absurd hop hplain.2.2.2
  | @switch _ _ _ s hs htargets =>
    have hplain : s.op ≠ .label ∧ s.op ≠ .enterTry ∧ s.op ≠ .endFinally ∧ s.op.isBranch = false := by
      rw [hs]
      decide
    have htarget (l : String) : s.target? ≠ some l := by
      rw [Statement.target?, hplain.2.2.2]
      rintro ⟨⟩
    obtain ⟨hstack, hnext⟩ := w.of_plain hat.head hplain.1 hplain.2.1 hplain.2.2.1
    exact .single hat.head hstack hnext (List.forall_mem_nil _) (fun l hl ↦ absurd hl (htarget l))
      (fun _ l hl ↦ absurd hl (htarget l)) fun _ ↦ htargets
  | @label _ _ _ l =>
    obtain ⟨hstack, hnext⟩ := w.of_disowned hat.labelAt (hown l List.mem_cons_self)
    refine .single hat.head hstack hnext ?_ (by rintro _ ⟨⟩) (by rintro ⟨⟩) (by rintro ⟨⟩)
    intro l' hl
    rw [List.mem_singleton.mp hl]
    exact hat.labelAt
  | @construct _ _ labels own n _ _ hlabels hperm _ ih =>
    refine (ih hat hle (hbelow.mono (Nat.le_succ _)) fun l hl ↦ ?_).construct hlabels.plain
      fun l hl ↦ hperm.mem_iff.mpr hl
    exact hbelow.disowns (Nat.le_of_eq (hlabels.number l (hperm.mem_iff.mp hl)).symm)
  | @protect targets near clauses own n mid mid' hi c f e body handler cleanup hlabels _ hb hclosed
      hperm hh hc hclosed' hcl hf ihb ihh ihc =>
    obtain ⟨freshB, hfreshB⟩ := hb.freshLabels
    obtain ⟨freshH, hfreshH⟩ := hh.freshLabels
    exact w.protect hat hle hbelow hlabels hclosed hclosed'
      (fun p hat hle hbelow ↦ ihb hat hle hbelow (List.forall_mem_nil _)) (fun l hl ↦ hperm.mem_iff.mpr hl)
      (fun p hat hle hbelow hdisowns ↦ ihh hat hle (hbelow.mono hfreshB.le)
        fun l hl ↦ hdisowns l (hperm.mem_iff.mp hl))
      (fun p hat hle hbelow ↦ ihc hat hle (hbelow.mono (Nat.le_trans hfreshB.le hfreshH.le))
        (List.forall_mem_nil _))

end MethodCompiler
