import MethodCompiler.Proofs.ExitChains

/-!
# Where regions reach

A scan of any code finds each region open from its `try` on, first in its protected part and its handler,
then in its cleanup if it has one, and from its end on closed. So the part of a region that a position
lies in can be read off the positions of its labels, and a jump leaves the regions that are not open
where it goes, or only in their other part.
-/

namespace MethodCompiler

variable {code : List Statement} {w : Walk code} {map : RegionMap} {labels : LabelTable}
  {t : RegionTracker} {stack : RegionStack} {id : RegionId} {phase : Phase} {r : Region}
  {chain : List RegionId} {first turn last start i j : Nat}

/-! ### The walk of a scan -/

private theorem exists_of_scanFrom (h : RegionMap.scanFrom t start code = .ok map) :
    ∃ (tracker : Nat → RegionTracker) (stack : Nat → RegionStack), tracker 0 = t ∧
      (tracker code.length).stack = [] ∧ map.regions = (tracker code.length).regions ∧
      ∀ i s, code[i]? = some s → map.states[i]? = some (stack i).head? ∧
        (tracker i).Steps s (start + i) (stack i) (tracker (i + 1)) := by
  induction code generalizing t start map with
  | nil =>
    obtain ⟨regions, hfinish, h⟩ := bind_eq_ok.mp h
    cases h
    rw [RegionTracker.finish] at hfinish
    split at hfinish
    · next hempty =>
      cases hfinish
      exact ⟨fun _ ↦ t, fun _ ↦ [], rfl, hempty, rfl, by simp⟩
    · cases hfinish
  | cons s rest ih =>
    obtain ⟨⟨state, t'⟩, hstep, h⟩ := bind_eq_ok.mp h
    obtain ⟨tail, htail, h⟩ := bind_eq_ok.mp h
    cases h
    obtain ⟨stack₀, rfl, hsteps⟩ := RegionTracker.steps_of_step hstep
    obtain ⟨tracker, stack, rfl, hempty, hregions, hall⟩ := ih htail
    refine ⟨prepend t tracker, prepend stack₀ stack, rfl, hempty, hregions, fun i u hu ↦ ?_⟩
    cases i with
    | zero =>
      cases hu
      exact ⟨rfl, hsteps⟩
    | succ i =>
      rw [Nat.add_comm i 1, ← Nat.add_assoc, Nat.add_comm 1 i]
      exact hall i u hu

/-- A walk that finds what a scan finds. -/
structure Walk.Scans (w : Walk code) (map : RegionMap) : Prop where
  position : ∀ i, w.position i = i
  regions : map.regions = w.allRegions
  finished : (w.tracker code.length).stack = []
  states : ∀ {i}, i < code.length → map.stateAt i = (w.stack i).head?

/-- A scan that accepts the code takes the steps of a walk. -/
theorem exists_scans (h : RegionMap.scan code = .ok map) : ∃ w : Walk code, w.Scans map := by
  obtain ⟨tracker, stack, hstart, hfinished, hregions, hall⟩ := exists_of_scanFrom h
  simp only [Nat.zero_add] at hall
  refine ⟨⟨id, tracker, stack, hstart, fun hs ↦ (hall _ _ hs).2⟩, fun _ ↦ rfl, hregions, hfinished,
    fun {i} hi ↦ ?_⟩
  rw [RegionMap.stateAt, (hall i _ (List.getElem?_eq_getElem hi)).1]
  rfl

/-- The regions that a scan finds open at a position, innermost first. -/
def RegionMap.openAt (map : RegionMap) (position : Nat) : RegionStack :=
  stackAt map.regions (map.stateAt position)

/-- The regions that a scan finds open at a statement are those of the walk. -/
theorem Walk.Scans.openAt_eq (h : w.Scans map) (hi : i < code.length) :
    map.openAt i = w.stack i := by
  rw [RegionMap.openAt, h.regions, h.states hi, (w.linked_allRegions hi).stackAt]

/-! ### Spans -/

/-- A region is open from behind its `try` to its end, and from its finally label on in its cleanup.
Without a cleanup, its end is the end label. -/
structure Walk.Spans (w : Walk code) (id : RegionId) (r : Region) (first turn last : Nat) : Prop where
  start : r.start = w.position first
  le_length : last ≤ code.length
  only : ∀ {i phase}, i < code.length → (id, phase) ∈ w.stack i → first < i ∧ i < last
  guarded : ∀ {i}, first < i → i < turn → ∃ phase, phase ≠ .inFinally ∧ (id, phase) ∈ w.stack i
  cleanup : ∀ {i}, turn ≤ i → i < last → (id, .inFinally) ∈ w.stack i
  ends : r.finallyLabel = none → turn = last ∧ labelAt? code last = some r.endLabel
  turns : ∀ {l}, r.finallyLabel = some l → labelAt? code turn = some l ∧ first < turn ∧ turn < last

namespace Walk

/-- A region is known from when it is opened. -/
theorem getElem?_regions (w : Walk code) (hr : w.allRegions[id]? = some r) (hi : i ≤ code.length)
    (hid : id < (w.tracker i).regions.length) : (w.tracker i).regions[id]? = some r := by
  obtain ⟨more, hmore⟩ := w.regions_le hi (Nat.le_refl _)
  rwa [allRegions, ← hmore, List.getElem?_append_left hid] at hr

/-- A region stays in its part until it turns, and it does so before the code ends. -/
private theorem exists_turn (w : Walk code) (hend : (w.tracker code.length).stack = [])
    (hr : w.allRegions[id]? = some r) (hi : i ≤ code.length) (hx : (id, phase) ∈ (w.tracker i).stack) :
    ∃ k s phase', i ≤ k ∧ code[k]? = some s ∧ (phase' = .inFinally ↔ phase = .inFinally) ∧
      RegionTracker.Turns s (w.stack k) (w.tracker (k + 1)) id r phase' ∧
      ∀ j, i ≤ j → j < k → ∃ phase', (phase' = .inFinally ↔ phase = .inFinally) ∧
        (id, phase') ∈ w.stack j := by
  induction hn : code.length - i generalizing i phase with
  | zero =>
    obtain rfl : i = code.length := by omega
    rw [hend] at hx
    cases hx
  | succ n ih =>
    have hlt : i < code.length := by omega
    have hs := List.getElem?_eq_getElem hlt
    have hordered := w.ordered hi
    rcases (w.steps hs).stays_or_turns hordered hx
        (w.getElem?_regions hr hi (hordered.lt_length hx)) with ⟨phase₁, hiff, hown, hnext⟩ | hturn
    · obtain ⟨k, s, phase₂, hk, hsk, hiff₂, hturn, hbefore⟩ := ih hlt hnext (by omega)
      refine ⟨k, s, phase₂, by omega, hsk, hiff₂.trans hiff, hturn, fun j hj hjk ↦ ?_⟩
      rcases Nat.eq_or_lt_of_le hj with rfl | hj
      · exact ⟨phase₁, hiff, hown⟩
      · obtain ⟨phase₃, hiff₃, hx₃⟩ := hbefore j hj hjk
        exact ⟨phase₃, hiff₃.trans hiff, hx₃⟩
    · exact ⟨i, _, phase, Nat.le_refl i, hs, Iff.rfl, hturn, by omega⟩

/-- A region is not open before its `try`, and not once it has been closed. -/
private theorem open_only (w : Walk code) (hfirst : (w.tracker first).regions.length = id)
    (hopens : (w.tracker (first + 1)).stack = (id, .inTry) :: w.stack first)
    (hlt : first < last) (hlast : last ≤ code.length)
    (hclosed : ∀ phase, (id, phase) ∉ (w.tracker last).stack) (hi : i < code.length)
    (hx : (id, phase) ∈ w.stack i) : first < i ∧ i < last := by
  have hid : id < (w.tracker last).regions.length := by
    have hopened := (w.ordered (Nat.le_trans hlt hlast)).lt_length
      (hopens ▸ List.mem_cons_self : (id, Phase.inTry) ∈ (w.tracker (first + 1)).stack)
    exact Nat.lt_of_lt_of_le hopened (w.regions_le hlt hlast).length_le
  constructor
  · by_contra hle
    have hmono := (w.regions_le (Nat.le_of_not_lt hle) (Nat.le_trans (Nat.le_of_lt hlt) hlast)).length_le
    rw [hfirst] at hmono
    exact Nat.lt_irrefl id (Nat.lt_of_lt_of_le ((w.linked hi).lt_length hx) hmono)
  · by_contra hge
    exact w.not_mem_of_closed hid hclosed (Nat.le_of_not_lt hge) hi hx

private theorem exists_spans (w : Walk code) (hend : (w.tracker code.length).stack = [])
    (hr : w.allRegions[id]? = some r) : ∃ first turn last, w.Spans id r first turn last := by
  obtain ⟨first, hlt, hstart, hlength, hopens⟩ := w.exists_opens (Nat.le_refl _) hr
  obtain ⟨turn, s, phase, hturn, hs, hiff, hcase, hguarded⟩ := w.exists_turn hend hr hlt
    (hopens ▸ List.mem_cons_self : (id, Phase.inTry) ∈ (w.tracker (first + 1)).stack)
  have hbody {j : Nat} (hlo : first < j) (hhi : j < turn) :
      ∃ phase, phase ≠ .inFinally ∧ (id, phase) ∈ w.stack j := by
    obtain ⟨phase, hiff, hx⟩ := hguarded j hlo hhi
    refine ⟨phase, fun hphase ↦ ?_, hx⟩
    cases hiff.mp hphase
  have hturnlt := (List.getElem?_eq_some_iff.mp hs).1
  cases hcase with
  | finishes => cases hiff.mp rfl
  | ends hl hnone hown hnext =>
    refine ⟨first, turn, turn, hstart, Nat.le_of_lt hturnlt, ?_, hbody, by omega, ?_, ?_⟩
    · intro i phase hi hx
      have honly := w.open_only hlength hopens (Nat.lt_succ_of_lt hturn) hturnlt hnext hi hx
      refine ⟨honly.1, Nat.lt_of_le_of_ne (Nat.le_of_lt_succ honly.2) ?_⟩
      rintro rfl
      exact hown phase hx
    · exact fun _ ↦ ⟨rfl, (labelAt?_eq hs).trans hl⟩
    · intro l hl
      rw [hnone] at hl
      cases hl
  | @cleanup _ l _ hl hfinally hown hnext =>
    obtain ⟨close, s', phase', hclose, hs', hiff', hcase', hcleanup⟩ := w.exists_turn hend hr hturnlt hnext
    have hcloselt := (List.getElem?_eq_some_iff.mp hs').1
    cases hcase' with
    | cleanup hphase => exact absurd (hiff'.mpr rfl) hphase
    | ends _ hnone =>
      rw [hfinally] at hnone
      cases hnone
    | finishes hop hown' hnext' =>
      refine ⟨first, turn, close + 1, hstart, hcloselt, ?_, hbody, ?_, ?_, ?_⟩
      · exact w.open_only hlength hopens (by omega) hcloselt hnext'
      · intro i hlo hhi
        rcases Nat.eq_or_lt_of_le hlo with rfl | hlo
        · exact hown
        rcases Nat.eq_or_lt_of_le (Nat.le_of_lt_succ hhi) with rfl | hhi
        · exact hown'
        obtain ⟨phase, hiff, hx⟩ := hcleanup i hlo hhi
        rwa [hiff.mpr rfl] at hx
      · intro hnone
        rw [hfinally] at hnone
        cases hnone
      · intro l' hl'
        rw [hfinally] at hl'
        cases hl'
        exact ⟨(labelAt?_eq hs).trans hl, hturn, by omega⟩

end Walk

private theorem mem_marks {fin : Bool} : (id, fin) ∈ marks stack ↔
    ∃ phase, (phase == .inFinally) = fin ∧ (id, phase) ∈ stack := by
  simp only [marks, List.mem_map, Prod.mk.injEq, Prod.exists]
  constructor
  · rintro ⟨id', phase, hx, rfl, hfin⟩
    exact ⟨phase, hfin, hx⟩
  · rintro ⟨phase, hfin, hx⟩
    exact ⟨id, phase, hx, rfl, hfin⟩

namespace Walk.Spans

variable (h : w.Spans id r first turn last)

include h

private theorem mem_marks_guarded (hi : i < code.length) :
    (id, false) ∈ marks (w.stack i) ↔ first < i ∧ i < turn := by
  rw [mem_marks]
  constructor
  · rintro ⟨phase, hphase, hx⟩
    obtain ⟨hlo, hhi⟩ := h.only hi hx
    refine ⟨hlo, Nat.lt_of_not_le fun hle ↦ ?_⟩
    obtain ⟨inner, outer, hstack⟩ := List.append_of_mem hx
    have hlinked := w.linked hi
    rw [hstack] at hlinked
    have hfin := hlinked.phase_unique (hstack ▸ h.cleanup hle hhi)
    rw [← hfin] at hphase
    cases hphase
  · rintro ⟨hlo, hhi⟩
    obtain ⟨phase, hphase, hx⟩ := h.guarded hlo hhi
    exact ⟨phase, beq_eq_false_iff_ne.mpr hphase, hx⟩

private theorem mem_marks_cleanup (hi : i < code.length) :
    (id, true) ∈ marks (w.stack i) ↔ turn ≤ i ∧ i < last := by
  constructor
  · intro hx
    obtain ⟨phase, hphase, hmem⟩ := mem_marks.mp hx
    obtain ⟨hlo, hhi⟩ := h.only hi hmem
    refine ⟨Nat.le_of_not_lt fun hlt ↦ ?_, hhi⟩
    obtain ⟨phase', hphase', hx'⟩ := h.guarded hlo hlt
    obtain ⟨inner, outer, hstack⟩ := List.append_of_mem hmem
    have hlinked := w.linked hi
    rw [hstack] at hlinked
    exact hphase' ((hlinked.phase_unique (hstack ▸ hx')).trans (beq_iff_eq.mp hphase))
  · rintro ⟨hlo, hhi⟩
    exact mem_marks.mpr ⟨.inFinally, rfl, h.cleanup hlo hhi⟩

/-- Which part of a region a position lies in is read off the labels of the region. Only the finally
label itself counts to neither part. -/
private theorem exists_holds (hposition : w.position first = first)
    (hlabels : LabelTable.build code = .ok labels) (hend : labelAt? code last = some r.endLabel)
    (hi : i < code.length) (hx : (id, phase) ∈ w.stack i) (hj : j < code.length) :
    ∃ inside, r.holds phase j labels = .ok inside ∧
      (inside = true → (id, phase == .inFinally) ∈ marks (w.stack j)) ∧
      (inside = false → phase ≠ .inFinally → (id, phase == .inFinally) ∉ marks (w.stack j)) := by
  have hresolve {k : Nat} {l : String} (hl : labelAt? code k = some l) : labels.resolve l = .ok k :=
    LabelTable.resolve_of_get? (LabelTable.get?_of_labelAt? hlabels hl)
  have hfirst : r.start = first := h.start.trans hposition
  by_cases hphase : phase = .inFinally
  · subst hphase
    obtain ⟨l, hf⟩ : ∃ l, r.finallyLabel = some l := by
      by_contra hnone
      have hbounds := (h.mem_marks_cleanup hi).mp (mem_marks.mpr ⟨_, rfl, hx⟩)
      have hturn := (h.ends (Option.eq_none_iff_forall_ne_some.mpr fun l hl ↦ hnone ⟨l, hl⟩)).1
      omega
    refine ⟨decide (turn < j) && decide (j < last), ?_, fun hinside ↦ ?_, fun _ hne ↦ absurd rfl hne⟩
    · simp only [Region.holds, hresolve hend, hf, hresolve (h.turns hf).1, bind, Except.bind]
      rfl
    · simp only [Bool.and_eq_true, decide_eq_true_eq] at hinside
      exact (h.mem_marks_cleanup hj).mpr ⟨Nat.le_of_lt hinside.1, hinside.2⟩
  · rw [beq_eq_false_iff_ne.mpr hphase, h.mem_marks_guarded hj]
    refine ⟨decide (first < j) && decide (j < turn), ?_, by simp, fun hout _ hinside ↦ ?_⟩
    · simp only [Region.holds, hresolve hend, hfirst, bind, Except.bind]
      cases hf : r.finallyLabel with
      | none =>
        rw [(h.ends hf).1]
        rfl
      | some l =>
        simp only [hresolve (h.turns hf).1]
        cases phase with
        | inFinally => exact absurd rfl hphase
        | inTry | inCatch => rfl
    · rw [decide_eq_true hinside.1, decide_eq_true hinside.2] at hout
      cases hout

end Walk.Spans

/-! ### Jumps -/

namespace RegionMap

/-- Each region with a cleanup has its end label directly behind the `endfinally` of the cleanup. -/
def EndsBehindCleanup (map : RegionMap) (code : List Statement) : Prop :=
  ∀ id r, map.regions[id]? = some r → r.finallyLabel.isSome →
    ∃ position s, code[position]? = some s ∧ s.op = .endFinally ∧
      map.stateAt position = some (id, .inFinally) ∧ labelAt? code (position + 1) = some r.endLabel

/-- The regions that are open at one position and not at another, or there in their other part:
a region has its cleanup as one part, and what stands before that as the other. -/
def closedBetween (map : RegionMap) (i j : Nat) : List RegionId :=
  ((map.openAt i).filter fun x ↦ (x.1, x.2 == .inFinally) ∉ marks (map.openAt j)).map (·.1)

end RegionMap

/-- An `endfinally` closes the innermost region. -/
private theorem Walk.not_mem_of_endFinally (w : Walk code) {s : Statement} (hs : code[i]? = some s)
    (hop : s.op = .endFinally) (hx : (w.stack i).head? = some (id, .inFinally)) (phase : Phase) :
    (id, phase) ∉ (w.tracker (i + 1)).stack := by
  have hordered := w.ordered (Nat.le_of_lt (List.getElem?_eq_some_iff.mp hs).1)
  have hsteps := w.steps hs
  generalize w.stack i = S, w.tracker (i + 1) = t' at hsteps hx ⊢
  cases hsteps with
  | plain _ _ hclose => exact absurd hop hclose
  | crosses hl =>
    rw [Statement.op_of_label? hl] at hop
    cases hop
  | opens hopen =>
    rw [hop] at hopen
    cases hopen
  | closes _ hstack =>
    rw [RegionTracker.Ordered, hstack] at hordered
    rw [hstack] at hx
    cases hx
    exact fun hmem ↦ Nat.lt_irrefl id (hordered.2.1 _ hmem)

/-- With its end label behind its cleanup, a region ends at the label. -/
private theorem Walk.Spans.labelAt?_last (h : w.Spans id r first turn last) (hscans : w.Scans map)
    (hends : map.EndsBehindCleanup code) (hr : map.regions[id]? = some r) :
    labelAt? code last = some r.endLabel := by
  cases hf : r.finallyLabel with
  | none => exact (h.ends hf).2
  | some l =>
    obtain ⟨close, s, hs, hop, hstate, hlabel⟩ := hends id r hr (by rw [hf]; rfl)
    have hlt := (List.getElem?_eq_some_iff.mp hs).1
    rw [hscans.states hlt] at hstate
    have hx : (id, .inFinally) ∈ w.stack close := List.mem_of_head? hstate
    obtain ⟨hlo, hhi⟩ := (h.mem_marks_cleanup hlt).mp (mem_marks.mpr ⟨_, rfl, hx⟩)
    have hlast : last = close + 1 := by
      by_contra hne
      have hnext : close + 1 < last := by omega
      have hnextlt := Nat.lt_of_lt_of_le hnext h.le_length
      have hid := Nat.lt_of_lt_of_le ((w.linked hlt).lt_length hx)
        (w.regions_le (Nat.le_succ close) hlt).length_le
      exact w.not_mem_of_closed hid (w.not_mem_of_endFinally hs hop hstate) (Nat.le_refl _) hnextlt
        (h.cleanup (Nat.le_succ_of_le hlo) hnext)
    rw [hlast]
    exact hlabel

/-- The exit chain of a jump, along the regions that are open where it stands. -/
private theorem Walk.Scans.exitChain_jump (hscans : w.Scans map)
    (hlabels : LabelTable.build code = .ok labels)
    (hends : map.EndsBehindCleanup code) (hi : i < code.length) (hj : j < code.length)
    (inner : RegionStack) (hstack : w.stack i = inner ++ stack) {position : Nat}
    (h : exitChain map.regions (.jump j) labels position stack = .ok chain) :
    chain = (stack.filter fun x ↦ (x.1, x.2 == .inFinally) ∉ marks (w.stack j)).map (·.1) := by
  induction stack generalizing inner chain with
  | nil => exact (Except.ok.inj h).symm
  | cons x outer ih =>
    obtain ⟨id, phase⟩ := x
    have hx : (id, phase) ∈ w.stack i := by simp [hstack]
    have hlinked := w.linked_allRegions hi
    obtain ⟨r, hr⟩ : ∃ r, w.allRegions[id]? = some r :=
      ⟨_, List.getElem?_eq_getElem (hlinked.lt_length hx)⟩
    obtain ⟨first, turn, last, hspan⟩ := w.exists_spans hscans.finished hr
    have hr' : map.regions[id]? = some r := by rw [hscans.regions, hr]
    obtain ⟨inside, hheld, hin, hout⟩ := hspan.exists_holds (hscans.position first) hlabels
      (hspan.labelAt?_last hscans hends hr') hi hx hj
    -- a region around one that is open there, in whatever phase, is open there in the same phase
    have houter {phase' : Phase} (hx' : (id, phase') ∈ w.stack j) :
        ∀ x ∈ outer, (x.1, x.2 == .inFinally) ∈ marks (w.stack j) := by
      intro x hmem
      obtain ⟨inner', outer', hstack'⟩ := List.append_of_mem hx'
      have hlinked' := w.linked_allRegions hj
      rw [hstack'] at hlinked'
      rw [hstack] at hlinked
      obtain rfl : outer = outer' := (hlinked.outer hr).symm.trans (hlinked'.outer hr)
      refine mem_marks.mpr ⟨x.2, rfl, ?_⟩
      rw [hstack']
      exact List.mem_append_right _ (List.mem_cons_of_mem _ hmem)
    rw [exitChain] at h
    simp only [hr', hheld, bind, Except.bind] at h
    cases inside with
    | true =>
      obtain rfl := pure_eq_ok.mp h
      obtain ⟨phase', -, hx'⟩ := mem_marks.mp (hin rfl)
      rw [List.filter_eq_nil_iff.mpr, List.map_nil]
      refine List.forall_mem_cons.mpr ⟨by simpa using hin rfl, fun x hmem ↦ ?_⟩
      simpa using houter hx' x hmem
    | false =>
      simp only [Bool.false_eq_true, if_false] at h
      split at h
      · cases h
      · next hphase =>
        -- a region that is left without error is not in its cleanup
        obtain ⟨rest, hrest, h⟩ := bind_eq_ok.mp h
        obtain rfl := pure_eq_ok.mp h
        have hleft := hout rfl (by simpa using hphase)
        rw [List.filter_cons_of_pos (by simpa using hleft), List.map_cons,
          ih (inner ++ [(id, phase)]) (by simp [hstack]) hrest]

/-- Where each end label stands behind its cleanup, the regions that a jump leaves by the positions of
labels are those that a scan finds open where it stands, and not in the same part where it goes. -/
theorem jump_leaves_closedBetween (hlabels : LabelTable.build code = .ok labels)
    (hscan : RegionMap.scan code = .ok map) (hends : map.EndsBehindCleanup code)
    (hi : i < code.length) (hj : j < code.length)
    (h : exitChain map.regions (.jump j) labels i (map.openAt i) = .ok chain) :
    chain = map.closedBetween i j := by
  obtain ⟨w, hscans⟩ := exists_scans hscan
  rw [RegionMap.closedBetween, hscans.openAt_eq hi, hscans.openAt_eq hj]
  rw [hscans.openAt_eq hi] at h
  exact hscans.exitChain_jump hlabels hends hi hj [] rfl h

/-- `try { again: try { jump done } catch { jump again } jump outer_finally } finally {} done: return` -/
private def crossingCode : List Statement :=
  [.of .enterTry [.null, .label "outer_finally", .label "done"],
    .label "again",
    .of .enterTry [.label "inner_catch", .null, .label "tried"],
    .jump "done",
    .label "inner_catch",
    .jump "again",
    .label "tried",
    .jump "outer_finally",
    .label "outer_finally",
    .of .endFinally [],
    .label "done",
    .of .ret []]

private def crossingMap : RegionMap where
  states := [none, some (0, .inTry), some (0, .inTry), some (1, .inTry), some (1, .inCatch),
    some (1, .inCatch), some (0, .inTry), some (0, .inTry), some (0, .inFinally), some (0, .inFinally),
    none, none]
  regions := [⟨[], 0, none, some "outer_finally", "done"⟩,
    ⟨[(0, .inTry)], 2, some "inner_catch", none, "tried"⟩]

private def crossingLabels : LabelTable :=
  [("again", 1), ("inner_catch", 4), ("tried", 6), ("outer_finally", 8), ("done", 10)]

/-- The jump out leaves both regions, the jump back only the inner one, and the jump to the cleanup leaves
the region whose cleanup it is. -/
theorem crossing_leaves_closedBetween :
    LabelTable.build crossingCode = .ok crossingLabels ∧
      RegionMap.scan crossingCode = .ok crossingMap ∧ crossingMap.EndsBehindCleanup crossingCode ∧
      [1, 0] = crossingMap.closedBetween 3 10 ∧ [1] = crossingMap.closedBetween 5 1 ∧
      [0] = crossingMap.closedBetween 7 8 := by
  have hlabels : LabelTable.build crossingCode = .ok crossingLabels := rfl
  have hscan : RegionMap.scan crossingCode = .ok crossingMap := rfl
  have hends : crossingMap.EndsBehindCleanup crossingCode := by
    intro id r hr hf
    rcases id with _ | _ | id
    · cases hr
      exact ⟨9, _, rfl, rfl, rfl, rfl⟩
    · cases hr
      cases hf
    · cases hr
  refine ⟨hlabels, hscan, hends, ?_, ?_, ?_⟩
  all_goals
    exact jump_leaves_closedBetween hlabels hscan hends (by decide) (by decide) (rfl)

end MethodCompiler
