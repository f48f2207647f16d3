import MethodCompiler.Proofs.FlowEdges
import MethodCompiler.Proofs.FormedCode
import MethodCompiler.Proofs.InsertedLeaves
import MethodCompiler.Proofs.Landing

/-!
# The regions that a transfer leaves

`exitChain` reads the regions that a transfer leaves off positions and labels. In laid out code they are
what the stacks of a walk say: a return leaves all regions that are not in their cleanup, a throw those
inside the one that handles it, and a jump those that are not open where it goes.
-/

namespace MethodCompiler

variable {code : List Statement} {w : Walk code} {sealed : Bool} {pool : List Value}
  {regions regions' : List Region} {stack left : RegionStack} {table : LabelTable}
  {place : Nat → Nat} {need : Nat → Nat} {s : Statement} {id : RegionId} {phase : Phase} {r : Region}
  {first last bound position i j : Nat} {l : String}

/-! ### Walks over laid out code -/

/-- Comments do not matter to the tracker. -/
theorem RegionTracker.steps_bare {t t' : RegionTracker} :
    t.Steps s.bare position stack t' ↔ t.Steps s position stack t' := by
  have hcongr {s s' : Statement} (hop : s'.op = s.op) (hoperands : s'.operands = s.operands)
      (h : t.Steps s position stack t') : t.Steps s' position stack t' := by
    have hlabel : s'.label? = s.label? := by
      rw [Statement.label?, Statement.label?, Statement.isLabel, Statement.isLabel, hop, hoperands]
    cases h with
    | plain hl hopen hclose => exact .plain (hlabel.trans hl) (hop ▸ hopen) (hop ▸ hclose)
    | crosses hl hcross => exact .crosses (hlabel.trans hl) hcross
    | opens ho hopen =>
      refine .opens (hop.trans ho) ?_
      rw [Region.open?, hoperands]
      exact hopen
    | closes ho hstack => exact .closes (hop.trans ho) hstack
  exact ⟨hcongr rfl rfl, hcongr rfl rfl⟩

/-- The same walk over code without comments. -/
def Walk.bare (w : Walk code) : Walk (code.map Statement.bare) where
  position := w.position
  tracker := w.tracker
  stack := w.stack
  start := w.start
  steps h := by
    rw [List.getElem?_map] at h
    obtain ⟨s, hs, rfl⟩ := Option.map_eq_some_iff.mp h
    exact RegionTracker.steps_bare.mpr (w.steps hs)

/-- A label stands where it stands without comments. -/
theorem labelAt?_map_bare (code : List Statement) (i : Nat) :
    labelAt? (code.map Statement.bare) i = labelAt? code i := by
  rw [labelAt?, labelAt?, List.getElem?_map, Option.bind_map]
  rfl

/-- All regions of the code. -/
def Walk.allRegions (w : Walk code) : List Region := (w.tracker code.length).regions

/-- What a walk over laid out code finds. -/
structure Walk.Shaped (w : Walk code) (sealed : Bool) (pool : List Value) : Prop where
  balanced : (w.tracker code.length).stack = []
  leads : ∀ {i s}, code[i]? = some s → Leads w sealed pool i s
  arrives : ∀ {i}, i < code.length → marks (w.stack i) = marks (w.tracker i).stack ∨
    ∃ s, 0 < i ∧ code[i - 1]? = some s ∧ s.stops = true
  placed : ∀ {id r}, w.allRegions[id]? = some r → ∃ first last, RegionPlaced w id r first last

private theorem RegionPlaced.of_bare (h : RegionPlaced w.bare id r first last) :
    RegionPlaced w id r first last := by
  obtain ⟨hstart, ⟨s, hs, hop⟩, houter, hstop, hhandler, hmarked, hcleanup, hnone, hbetween, honly⟩ := h
  simp only [labelAt?_map_bare, List.length_map] at hstop hhandler hcleanup hnone honly
  rw [List.getElem?_map] at hs
  obtain ⟨s', hs', rfl⟩ := Option.map_eq_some_iff.mp hs
  exact ⟨hstart, ⟨s', hs', hop⟩, houter, hstop, hhandler, hmarked, hcleanup, hnone, hbetween, honly⟩

private theorem Walk.Reaches.of_bare (h : w.bare.Reaches sealed stack l) : w.Reaches sealed stack l := by
  obtain ⟨hplain, j, hj, hout⟩ := h
  rw [labelAt?_map_bare] at hj
  exact ⟨hplain, j, hj, hout⟩

private theorem Walk.Stays.of_bare (h : w.bare.Stays stack l) : w.Stays stack l := by
  obtain ⟨hplain, j, hj, hstack⟩ := h
  rw [labelAt?_map_bare] at hj
  exact ⟨hplain, j, hj, hstack⟩

/-- Every walk over laid out code finds its regions as they are laid out. -/
theorem Laid.shaped {n : Nat} (w : Walk code)
    (h : Laid sealed pool [] [] 0 n [] (code.map Statement.bare)) : w.Shaped sealed pool := by
  have hstart : (w.tracker 0).stack = [] := by rw [w.start]
  have hbelow : (w.bare.tracker 0).Below 0 := by
    intro x hx
    change x ∈ (w.tracker 0).stack at hx
    rw [hstart] at hx
    cases hx
  have hsettled := h.settled w.bare (CodeAt.refl _) (by simp) hbelow (List.forall_mem_nil _)
  have hbare {i : Nat} {s : Statement} (hs : code[i]? = some s) :
      (code.map Statement.bare)[i]? = some s.bare := by rw [List.getElem?_map, hs, Option.map_some]
  have hlt {i : Nat} (hi : i < code.length) : i < 0 + (code.map Statement.bare).length := by
    simpa using hi
  constructor
  · have hbalanced := hsettled.balanced
    rw [Nat.zero_add, List.length_map] at hbalanced
    exact hbalanced.trans hstart
  · intro i s hs
    obtain ⟨hbranch, hcond, hswitch⟩ := hsettled.leads (List.forall_mem_nil _) (List.forall_mem_nil _)
      i s.bare (Nat.zero_le i) (hlt (List.getElem?_eq_some_iff.mp hs).1) (hbare hs)
    exact ⟨fun l hl ↦ (hbranch l hl).of_bare, fun hop l hl ↦ (hcond hop l hl).of_bare,
      fun hop l hl ↦ (hswitch hop l hl).of_bare⟩
  · intro i hi
    refine (hsettled.arrives i (Nat.zero_le i) (hlt hi)).imp_right fun harrives ↦ ?_
    obtain ⟨s, hpos, hs, hstops⟩ := harrives
    rw [List.getElem?_map] at hs
    obtain ⟨s', hs', rfl⟩ := Option.map_eq_some_iff.mp hs
    exact ⟨s', hpos, hs', hstops⟩
  · intro id r hr
    have hempty : (w.bare.tracker 0).regions.length ≤ id := by
      change (w.tracker 0).regions.length ≤ id
      rw [w.start]
      exact Nat.zero_le id
    rw [Walk.allRegions] at hr
    obtain ⟨first, last, hplaced⟩ := hsettled.placed id r hempty (by
      rw [Nat.zero_add, List.length_map]
      exact hr)
    exact ⟨first, last, hplaced.of_bare⟩

/-- The regions that are open at a statement are regions of the code. -/
theorem Walk.getElem?_allRegions (w : Walk code) (hi : i < code.length) {x : RegionId × Phase}
    (hx : x ∈ w.stack i) : (w.tracker (i + 1)).regions[x.1]? = w.allRegions[x.1]? := by
  obtain ⟨more, hmore⟩ := w.regions_le hi (Nat.le_refl _)
  have hlt : x.1 < (w.tracker (i + 1)).regions.length :=
    Nat.lt_of_lt_of_le ((w.linked hi).lt_length hx)
      (w.regions_le (Nat.le_succ i) hi).length_le
  rw [Walk.allRegions, ← hmore, List.getElem?_append_left hlt]

/-- The region that a `try` opens is the next one of the code. -/
theorem Walk.exists_opened (w : Walk code) (hs : code[i]? = some s) (hop : s.op = .enterTry) :
    ∃ r, w.allRegions[(w.tracker i).regions.length]? = some r ∧
      Region.open? s (w.position i) (w.tracker i).stack = .ok r := by
  have hi := (List.getElem?_eq_some_iff.mp hs).1
  obtain ⟨more, hmore⟩ := w.regions_le (show i + 1 ≤ code.length from hi) (Nat.le_refl _)
  have hsteps := w.steps hs
  rw [Walk.allRegions, ← hmore]
  generalize w.stack i = stack, w.tracker (i + 1) = t at hsteps ⊢
  cases hsteps with
  | plain _ hopen => exact absurd hop hopen
  | crosses hl =>
    rw [Statement.op_of_label? hl] at hop
    cases hop
  | @opens r _ hopen => exact ⟨r, by simp, hopen⟩
  | closes hclose =>
    rw [hclose] at hop
    cases hop

/-- The regions that are open at a statement stand in one another. -/
theorem Walk.linked_allRegions (w : Walk code) (hi : i < code.length) :
    Linked w.allRegions (w.stack i) :=
  (w.linked hi).mono (w.regions_le (Nat.le_of_lt hi) (Nat.le_refl _))

/-- A region that is open at a statement, with its place. -/
theorem Walk.Shaped.placedAt (h : w.Shaped sealed pool) (hi : i < code.length)
    (hx : (id, phase) ∈ w.stack i) : ∃ r first last, w.allRegions[id]? = some r ∧
      RegionPlaced w id r first last ∧ first < i ∧ i < last := by
  have hlt := (w.linked_allRegions hi).lt_length hx
  obtain ⟨first, last, hplaced⟩ := h.placed (List.getElem?_eq_getElem hlt)
  exact ⟨_, first, last, List.getElem?_eq_getElem hlt, hplaced, hplaced.only i phase hi hx⟩

/-! ### Where labels are -/

namespace LabelTable

/-- A table has the labels that the code defines, in order. -/
theorem map_fst_entriesFrom (start : Nat) (code : List Statement) :
    (entriesFrom start code).map (·.1) = labelsOf code := by
  induction code generalizing start with
  | nil => rfl
  | cons s rest ih =>
    rw [labelsOf, entriesFrom, List.zipIdx_cons]
    cases hl : s.label? with
    | none =>
      rw [List.filterMap_cons_none hl, List.filterMap_cons_none (by simp only [hl, Option.map_none])]
      exact ih (start + 1)
    | some l =>
      rw [List.filterMap_cons_some hl,
        List.filterMap_cons_some (b := (l, start)) (by simp only [hl, Option.map_some])]
      exact congrArg (l :: ·) (ih (start + 1))

private theorem firstRepeated?_eq_none {seen names : List String} :
    firstRepeated? seen names = none ↔ names.Nodup ∧ ∀ n ∈ names, n ∉ seen := by
  induction names generalizing seen with
  | nil => simp [firstRepeated?]
  | cons n rest ih =>
    rw [firstRepeated?, List.nodup_cons, List.forall_mem_cons]
    split
    · next h =>
      have hmem : n ∈ seen := by simpa using h
      exact ⟨nofun, fun h ↦ absurd hmem h.2.1⟩
    · next h =>
      have hmem : n ∉ seen := by simpa using h
      rw [ih]
      constructor
      · rintro ⟨hnodup, hnew⟩
        exact ⟨⟨fun hn ↦ hnew n hn List.mem_cons_self, hnodup⟩, hmem,
          fun m hm hs ↦ hnew m hm (List.mem_cons_of_mem n hs)⟩
      · rintro ⟨⟨hn, hnodup⟩, -, hnew⟩
        refine ⟨hnodup, fun m hm hs ↦ ?_⟩
        rcases List.mem_cons.mp hs with rfl | hs
        · exact hn hm
        · exact hnew m hm hs

/-- Code that defines no label twice has a table, and no other code has one. -/
theorem build_eq_ok : build code = .ok table ↔
    (labelsOf code).Nodup ∧ table = entriesFrom 0 code := by
  have hnone := @firstRepeated?_eq_none [] ((entriesFrom 0 code).map (·.1))
  rw [map_fst_entriesFrom] at hnone
  simp only [build, map_fst_entriesFrom]
  cases hfirst : firstRepeated? [] (labelsOf code) with
  | none =>
    have hnodup := (hnone.mp hfirst).1
    exact ⟨fun h ↦ ⟨hnodup, (Except.ok.inj h).symm⟩, fun h ↦ congrArg Except.ok h.2.symm⟩
  | some l =>
    refine ⟨by rintro ⟨⟩, fun h ↦ ?_⟩
    rw [hnone.mpr ⟨h.1, by simp⟩] at hfirst
    cases hfirst

/-- A label resolves to its position. -/
theorem get?_of_labelAt? (h : build code = .ok table) (hl : labelAt? code j = some l) :
    table.get? l = some j := by
  obtain ⟨hnodup, rfl⟩ := build_eq_ok.mp h
  obtain ⟨s, hs, hlabel⟩ := Option.bind_eq_some_iff.mp hl
  have hmem : (l, j) ∈ entriesFrom 0 code := mem_entriesFrom.mpr ⟨Nat.zero_le j, s, hs, hlabel⟩
  rw [← map_fst_entriesFrom 0] at hnodup
  rw [get?, find?_of_nodup hnodup hmem, Option.map_some]

/-- Inserted leaves move the position of each label. -/
theorem get?_spread (need : Nat → Nat) (i : Nat) (table : LabelTable) (l : String) :
    (table.spread need i).get? l = (table.get? l).map (spot need i) := by
  rw [get?, get?, spread, List.find?_map, Option.map_map, Option.map_map]
  rfl

/-- A label that a table has can be resolved. -/
theorem resolve_of_get? (h : table.get? l = some j) : table.resolve l = .ok j := by
  rw [resolve, h]

end LabelTable

/-- A table gives the label at `j` the place `place j`. The places are in order, also with the starts of
the regions that open before `bound`. -/
structure Walk.Located (w : Walk code) (table : LabelTable) (place : Nat → Nat) (bound : Nat) :
    Prop where
  resolve : ∀ {j l}, labelAt? code j = some l → table.resolve l = .ok (place j)
  mono : ∀ {j k}, place j < place k ↔ j < k
  start : ∀ {first j}, first < bound → j ≠ first → (w.position first < place j ↔ first < j)

/-- The labels while leaves are inserted. -/
theorem Walk.located_spread (w : Walk code) (h : LabelTable.build code = .ok table)
    (hposition : ∀ k, k < i → w.position k = paddedStart need k) :
    w.Located (table.spread need i) (spot need i) i where
  resolve hl := by
    apply LabelTable.resolve_of_get?
    rw [LabelTable.get?_spread, LabelTable.get?_of_labelAt? h hl, Option.map_some]
  mono := spot_lt_spot
  start {first j} hfirst hne := by
    have hspot : spot need i first = paddedStart need first + need first := if_pos hfirst
    rw [hposition first hfirst]
    constructor
    · intro hlt
      by_contra hge
      have hj : j < first := by omega
      have : spot need i j = paddedStart need j + need j := if_pos (Nat.lt_trans hj hfirst)
      have := paddedStart_add_lt need hj
      omega
    · intro hlt
      have : spot need i first < spot need i j := spot_lt_spot.mpr hlt
      omega

/-- The labels once all leaves are inserted. -/
theorem Walk.located_padded (w : Walk code)
    (h : LabelTable.build (padded need code) = .ok table)
    (hposition : ∀ k, w.position k = paddedStart need k) :
    w.Located table (fun j ↦ paddedStart need j + need j) code.length where
  resolve {j l} hl := by
    apply LabelTable.resolve_of_get?
    exact LabelTable.get?_of_labelAt? h (labelAt?_padded_of_labelAt? hl)
  mono {j k} := by
    constructor
    · intro h
      by_contra hge
      rcases Nat.lt_or_eq_of_le (Nat.le_of_not_lt hge) with hlt | rfl
      · have := paddedStart_add_lt need hlt
        omega
      · omega
    · intro h
      have := paddedStart_add_lt need h
      omega
  start {first j} _ hne := by
    rw [hposition first]
    constructor
    · intro h
      by_contra hge
      have := paddedStart_add_lt need (show j < first by omega)
      omega
    · intro h
      have := paddedStart_add_lt need h
      omega

/-! ### Parts of regions -/

namespace RegionPlaced

private theorem ne_first (hp : RegionPlaced w id r first last) (hj : labelAt? code j = some l) :
    j ≠ first := by
  rintro rfl
  obtain ⟨s, hs, hop⟩ := hp.opens
  rw [labelAt?_eq hs, Statement.label?_of_ne (by rw [hop]; nofun)] at hj
  cases hj

/-- A label that opens no phase lies in the part of a region that is open there. -/
private theorem holds_of_mem (hp : RegionPlaced w id r first last) (hloc : w.Located table place bound)
    (hfirst : first < bound) (hj : labelAt? code j = some l) (hl : isPhaseMarker l = false)
    (hx : (id, phase) ∈ w.stack j) : r.holds phase (place j) table = .ok true := by
  have hlt : j < code.length := by
    obtain ⟨s, hs, -⟩ := Option.bind_eq_some_iff.mp hj
    exact (List.getElem?_eq_some_iff.mp hs).1
  obtain ⟨hlo, hhi⟩ := hp.only j phase hlt hx
  have hstart : r.start < place j := by
    rw [hp.start]
    exact (hloc.start hfirst (hp.ne_first hj)).mpr hlo
  have hstop : place j < place last := hloc.mono.mpr hhi
  rw [Region.holds, hloc.resolve hp.stop]
  cases hf : r.finallyLabel with
  | none => simp [bind, Except.bind, pure, Except.pure, hstart, hstop]
  | some f =>
    obtain ⟨k, hk, -, hlok, hkhi, hiff⟩ := hp.cleanup f hf
    have hphase := hiff j phase hlt hx
    have hne : k ≠ j := by
      rintro rfl
      rw [Option.some.inj (hk.symm.trans hj)] at hf
      rw [hp.marked l hf] at hl
      cases hl
    cases phase with
    | inFinally =>
      have hkj : place k < place j := hloc.mono.mpr (by have := hphase.mp rfl; omega)
      simp [bind, Except.bind, pure, Except.pure, hloc.resolve hk, hkj, hstop]
    | inTry | inCatch =>
      have hjk : place j < place k := hloc.mono.mpr (by
        by_contra hge
        exact absurd (hphase.mpr (Nat.le_of_not_lt hge)) nofun)
      simp [bind, Except.bind, pure, Except.pure, hloc.resolve hk, hstart, hjk]

/-- A label lies in no part of a region that is not open there. -/
private theorem holds_of_not_mem (hp : RegionPlaced w id r first last) (hloc : w.Located table place bound)
    (hfirst : first < bound) (hj : labelAt? code j = some l) (hx : ∀ phase, (id, phase) ∉ w.stack j)
    (phase : Phase) : r.holds phase (place j) table = .ok false := by
  have hout : first < j → last ≤ j := by
    intro hlo
    by_contra hhi
    obtain ⟨phase, hmem⟩ := hp.between j hlo (Nat.lt_of_not_le hhi)
    exact hx phase hmem
  have hstart : r.start < place j ↔ first < j := by
    rw [hp.start]
    exact hloc.start hfirst (hp.ne_first hj)
  rw [Region.holds, hloc.resolve hp.stop]
  cases hf : r.finallyLabel with
  | none =>
    simp only [bind, Except.bind, pure, Except.pure, hstart, hloc.mono]
    congr 1
    simp only [Bool.and_eq_false_iff, decide_eq_false_iff_not]
    omega
  | some f =>
    obtain ⟨k, hk, -, hlok, hkhi, -⟩ := hp.cleanup f hf
    cases phase with
    | inFinally =>
      simp only [bind, Except.bind, pure, Except.pure, hloc.resolve hk, hloc.mono]
      congr 1
      simp only [Bool.and_eq_false_iff, decide_eq_false_iff_not]
      omega
    | inTry | inCatch =>
      simp only [bind, Except.bind, pure, Except.pure, hloc.resolve hk, hstart, hloc.mono]
      congr 1
      simp only [Bool.and_eq_false_iff, decide_eq_false_iff_not]
      omega

end RegionPlaced

/-! ### Chains -/

/-- The regions of a stack that are not in their cleanup, innermost first. -/
def live (stack : RegionStack) : List RegionId := (stack.filter (·.2 != .inFinally)).map (·.1)

/-- An exception that is raised in the region goes to its handler. -/
def catches (regions : List Region) (x : RegionId × Phase) : Bool :=
  x.2 == .inTry && regions[x.1]?.any (·.catchLabel.isSome)

/-- The innermost region counts unless it is in its cleanup. -/
theorem live_cons (id : RegionId) (phase : Phase) (stack : RegionStack) : live ((id, phase) :: stack) =
    if phase == .inFinally then live stack else id :: live stack := by
  rw [live, List.filter_cons]
  cases phase <;> rfl

/-- The regions that count are those of each part of a stack. -/
@[simp]
theorem live_append (a b : RegionStack) : live (a ++ b) = live a ++ live b := by
  rw [live, live, live, List.filter_append, List.map_append]

/-- All regions count where none is in its cleanup. -/
theorem live_eq_map (h : ∀ x ∈ stack, x.2 ≠ .inFinally) : live stack = stack.map (·.1) := by
  rw [live, List.filter_eq_self.mpr fun x hx ↦ bne_iff_ne.mpr (h x hx)]

/-- An exit chain depends only on the regions of the stack. -/
theorem exitChain_congr (h : ∀ x ∈ stack, regions[x.1]? = regions'[x.1]?) (exit : Exit) :
    exitChain regions exit table position stack = exitChain regions' exit table position stack := by
  induction stack with
  | nil => rfl
  | cons x outer ih =>
    obtain ⟨id, phase⟩ := x
    rw [List.forall_mem_cons] at h
    cases exit with
    | ret | throw | jump => simp only [exitChain, ih h.2, h.1]

/-- A `return` exits all regions that count. -/
theorem exitChain_ret :
    exitChain regions .ret table position stack = .ok (live stack) := by
  induction stack with
  | nil => rfl
  | cons x outer ih =>
    obtain ⟨id, phase⟩ := x
    rw [exitChain, ih, live_cons]
    rfl

/-- An exception exits the regions that count up to the first one that catches. -/
theorem exitChain_throw : exitChain regions .throw table position stack =
    .ok (live (stack.takeWhile (!catches regions ·))) := by
  induction stack with
  | nil => rfl
  | cons x outer ih =>
    obtain ⟨id, phase⟩ := x
    have hcatches : catches regions (id, phase) =
        (phase == .inTry && regions[id]?.any (·.catchLabel.isSome)) := rfl
    rw [exitChain, ih, List.takeWhile_cons, hcatches]
    split
    · next h =>
      rw [h]
      rfl
    · next h =>
      rw [Bool.not_eq_true] at h
      rw [h]
      simp only [Bool.not_false, if_true, live_cons]
      rfl

/-- A jump leaves the regions that are not open where it goes, and none of them in its cleanup. -/
theorem exitChain_jump (h : w.Shaped sealed pool) (hloc : w.Located table place bound)
    (hi : i < code.length) (hbound : i ≤ bound) {rest : RegionStack}
    (hrest : w.stack i = rest ++ left ++ w.stack j) (hj : labelAt? code j = some l)
    (hl : isPhaseMarker l = false) (position : Nat) :
    exitChain w.allRegions (.jump (place j)) table position (left ++ w.stack j) =
      if left.any (·.2 == .inFinally) then .error (.regionCrossingBranch .jump position)
      else .ok (left.map (·.1)) := by
  have hplaced {x : RegionId × Phase} (hx : x ∈ w.stack i) : ∃ r first last,
      w.allRegions[x.1]? = some r ∧ RegionPlaced w x.1 r first last ∧ first < bound := by
    obtain ⟨r, first, last, hr, hp, hlo, -⟩ := h.placedAt hi hx
    exact ⟨r, first, last, hr, hp, Nat.lt_of_lt_of_le hlo hbound⟩
  induction left generalizing rest with
  | nil =>
    cases hstack : w.stack j with
    | nil => rfl
    | cons x outer =>
      obtain ⟨id, phase⟩ := x
      have hx : (id, phase) ∈ w.stack j := by rw [hstack]; exact List.mem_cons_self
      obtain ⟨r, first, last, hr, hp, hfirst⟩ := hplaced (x := (id, phase)) (by
        rw [hrest]
        exact List.mem_append_right _ hx)
      have hinside := hp.holds_of_mem hloc hfirst hj hl hx
      simp only [List.nil_append, exitChain, hr, hinside]
      rfl
  | cons x left ih =>
    obtain ⟨id, phase⟩ := x
    have hlinked := w.linked_allRegions hi
    rw [hrest, List.append_assoc, List.cons_append] at hlinked
    obtain ⟨r, first, last, hr, hp, hfirst⟩ := hplaced (x := (id, phase)) (by rw [hrest]; simp)
    have houtside := hp.holds_of_not_mem hloc hfirst hj (fun phase hx ↦ Nat.lt_irrefl id
      (hlinked.of_append.2.1 (id, phase) (List.mem_append_right _ hx))) phase
    have hsplit : w.stack i = (rest ++ [(id, phase)]) ++ left ++ w.stack j := by rw [hrest]; simp
    have htail := ih hsplit
    simp only [List.cons_append, exitChain, hr, houtside, htail, List.any_cons, List.map_cons]
    cases phase with
    | inFinally => rfl
    | inTry | inCatch =>
      cases left.any (·.2 == .inFinally) <;> rfl

/-! ### What a statement needs -/

/-- Exceptions are raised by `throw` and `rethrow`. -/
theorem Opcode.isThrow_iff {op : Opcode} : op.isThrow = true ↔ op = .throw ∨ op = .rethrow := by
  cases op <;> decide

/-- The regions that a statement leaves, innermost first. -/
inductive Walk.Leaves (w : Walk code) (i : Nat) (s : Statement) : List RegionId → Prop
  | ret : s.op = .ret → Leaves w i s (live (w.stack i))
  | throw : s.op.isThrow = true →
      Leaves w i s (live ((w.stack i).takeWhile (!catches w.allRegions ·)))
  | jump {l : String} {j : Nat} {left : RegionStack} : s.op = .jump → s.target? = some l →
      labelAt? code j = some l → w.stack i = left ++ w.stack j → (∀ x ∈ left, x.2 ≠ .inFinally) →
      Leaves w i s (left.map (·.1))
  | stays : s.op ≠ .ret → s.op.isThrow = false → (s.op = .jump → s.target? = none) →
      Leaves w i s []

/-- It is known what a statement leaves, unless it is a jump out of a cleanup. -/
theorem Leads.exists_leaves (h : Leads w sealed pool i s)
    (hsafe : ∀ {l j left}, s.op = .jump → s.target? = some l → labelAt? code j = some l →
      w.stack i = left ++ w.stack j → sealed = true ∨ ∀ x ∈ left, x.2 ≠ .inFinally) :
    ∃ chain, w.Leaves i s chain := by
  by_cases hret : s.op = .ret
  · exact ⟨_, .ret hret⟩
  by_cases hthrow : s.op.isThrow = true
  · exact ⟨_, .throw hthrow⟩
  rw [Bool.not_eq_true] at hthrow
  by_cases hjump : s.op = .jump
  · cases hl : s.target? with
    | none => exact ⟨_, .stays hret hthrow fun _ ↦ hl⟩
    | some l =>
      obtain ⟨-, j, hj, left, hstack, hsealed⟩ := h.branch l hl
      exact ⟨_, .jump hjump hl hj hstack ((hsafe hjump hl hj hstack).elim hsealed id)⟩
  · exact ⟨_, .stays hret hthrow fun hop ↦ absurd hop hjump⟩

section Needs

variable (h : w.Shaped sealed pool) (hs : code[i]? = some s)
  (hloc : w.Located table place bound) (hbound : i ≤ bound)

include h hs hloc hbound

/-- The exit chain of a transfer holds the regions that it leaves. -/
theorem Walk.Leaves.exitChain_eq {chain : List RegionId} (hleaves : w.Leaves i s chain)
    (position : Nat) : ∃ exit, Exit.of? s table = .ok exit ∧
      exit.elim (.ok []) (exitChain w.allRegions · table position (w.stack i)) = .ok chain := by
  cases hleaves with
  | ret hop =>
    refine ⟨some .ret, ?_, exitChain_ret⟩
    rw [Exit.of?, hop]
  | throw hop =>
    refine ⟨some .throw, ?_, exitChain_throw⟩
    rw [Exit.of?]
    rcases Opcode.isThrow_iff.mp hop with hop | hop <;> rw [hop]
  | @jump l j left hop hl hj hstack hleft =>
    refine ⟨some (.jump (place j)), ?_, ?_⟩
    · rw [Exit.of?, hop]
      simp only [hl, hloc.resolve hj]
      rfl
    · have hi := (List.getElem?_eq_some_iff.mp hs).1
      have hchain := exitChain_jump h hloc hi hbound
        (show w.stack i = [] ++ left ++ w.stack j from hstack) hj ((h.leads hs).branch l hl).plain
        position
      have hany : left.any (·.2 == .inFinally) = false := by
        rw [List.any_eq_false]
        intro x hx
        simpa using hleft x hx
      rw [hany] at hchain
      rw [Option.elim_some, hstack, hchain]
      rfl
  | stays hret hthrow hjump =>
    refine ⟨none, ?_, rfl⟩
    unfold Exit.of?
    split
    · next hop => exact absurd hop hret
    · next hop =>
      rw [hop] at hthrow
      cases hthrow
    · next hop =>
      rw [hop] at hthrow
      cases hthrow
    · next hop => rw [hjump hop]
    · rfl

/-- A statement needs a leave for each region that it leaves. -/
theorem Walk.Leaves.leavesNeeded_eq {chain : List RegionId} (hleaves : w.Leaves i s chain)
    (position : Nat) :
    leavesNeeded w.allRegions (w.stack i) table s position = .ok chain.length := by
  obtain ⟨exit, hexit, hchain⟩ := hleaves.exitChain_eq h hs hloc hbound position
  rw [leavesNeeded]
  cases hstack : w.stack i with
  | nil =>
    rw [hstack] at hchain
    have : exit.elim (.ok []) (exitChain w.allRegions · table position []) =
        (.ok [] : Except Error (List RegionId)) := by
      cases exit <;> rfl
    rw [← Except.ok.inj (this.symm.trans hchain)]
    rfl
  | cons x outer =>
    rw [← hstack]
    have hempty : (w.stack i).isEmpty = false := by rw [hstack]; rfl
    simp only [hempty, Bool.false_eq_true, if_false]
    split
    · next hcond =>
      have hnil : chain = [] := by
        cases hleaves with
        | ret hop | jump hop =>
          rw [hop] at hcond
          cases hcond
        | throw hop =>
          rcases Opcode.isThrow_iff.mp hop with hop | hop
          all_goals
            rw [hop] at hcond
            cases hcond
        | stays => rfl
      rw [hnil]
      cases hl : s.target? with
      | none => rfl
      | some l =>
        obtain ⟨hplain, j, hj, hstay⟩ := (h.leads hs).conditional hcond l hl
        have hi := (List.getElem?_eq_some_iff.mp hs).1
        have hchain := exitChain_jump h hloc hi hbound
          (show w.stack i = [] ++ [] ++ w.stack j from hstay.symm) hj hplain position
        rw [List.nil_append, hstay] at hchain
        simp only [hloc.resolve hj, hchain, bind, Except.bind]
        rfl
    · rw [hexit]
      cases exit with
      | none =>
        rw [← Except.ok.inj hchain]
        rfl
      | some exit =>
        rw [Option.elim_some] at hchain
        simp only [bind, Except.bind, hchain]
        rfl

/-- Where leaves are inserted, it is known what a statement leaves. -/
theorem Walk.Shaped.exists_leaves (position : Nat) {n : Nat}
    (hok : leavesNeeded w.allRegions (w.stack i) table s position = .ok n) :
    ∃ chain, w.Leaves i s chain := by
  refine (h.leads hs).exists_leaves fun {l j left} hjump hl hj hstack ↦ .inr fun x hx hfin ↦ ?_
  -- the insertion would have failed here
  have hi := (List.getElem?_eq_some_iff.mp hs).1
  have hchain := exitChain_jump h hloc hi hbound
    (show w.stack i = [] ++ left ++ w.stack j from hstack) hj ((h.leads hs).branch l hl).plain
    position
  have hany : left.any (·.2 == .inFinally) = true :=
    List.any_eq_true.mpr ⟨x, hx, beq_iff_eq.mpr hfin⟩
  rw [hany, if_pos rfl, ← hstack] at hchain
  have hempty : (w.stack i).isEmpty = false := by
    rw [hstack]
    cases left with
    | nil => cases hx
    | cons => rfl
  simp only [leavesNeeded, hempty, Bool.false_eq_true, if_false, hjump,
    Opcode.isConditionalBranch, Exit.of?, hl, hloc.resolve hj, bind, Except.bind, pure,
    Except.pure, hchain] at hok
  cases hok

end Needs

end MethodCompiler
