import MethodCompiler.Proofs.LeaveScan

/-!
# Walks and insertions that succeed

The tracker meets no fault in sealed code: each label moves the innermost region on or belongs to none,
and what a construct opens it closes. So there is a walk over such code, and inserting leaves succeeds,
because no transfer leaves a cleanup that has not ended.
-/

namespace MethodCompiler

variable {code part : List Statement} {w : Walk code} {pool : List Value}
  {t t₁ t₂ t' : RegionTracker} {s : Statement} {stack : RegionStack} {labels : LabelTable}
  {need : Nat → Nat} {chain : List RegionId} {r : Region} {phase : Phase}
  {i n : Nat} {l : String}

/-! ### Labels without a fault -/

namespace RegionTracker

/-- A label of no open region that opens no phase changes nothing. -/
private theorem crossLabel_of_disowns (h : t.Disowns l) (hl : isPhaseMarker l = false) :
    t.crossLabel l = .ok t.stack := by
  have hforeign {outer : RegionStack} (houter : ∀ x ∈ outer, x ∈ t.stack) :
      (if outer.any (fun x ↦ (t.region? x.1).any (·.owns l)) || isPhaseMarker l then
        Except.error (RegionFault.foreignLabel l) else .ok t.stack) = .ok t.stack := by
    have hany : outer.any (fun x ↦ (t.region? x.1).any (·.owns l)) = false := by
      rw [List.any_eq_false]
      intro x hx
      cases hr : t.region? x.1 with
      | none => simp
      | some r => simp [h x (houter x hx) r hr]
    rw [hany, hl]
    rfl
  unfold crossLabel
  simp only
  split
  · exact hforeign (List.forall_mem_nil _)
  · next id phase outer hstack =>
    have houter : ∀ x ∈ outer, x ∈ t.stack := by
      rw [hstack]
      exact fun x ↦ List.mem_cons_of_mem _
    split
    · exact hforeign houter
    · next r hr =>
      have hown := h (id, phase) (by rw [hstack]; exact List.mem_cons_self) r hr
      simp only [Region.owns, Bool.or_eq_false_iff] at hown
      simp only [hown, Bool.false_eq_true, if_false]
      exact hforeign houter

/-- A tracker in a region that `t` opened. -/
structure Inside (t : RegionTracker) (r : Region) (phase : Phase) (t' : RegionTracker) : Prop where
  ordered : t'.Ordered
  regions : t.regions ++ [r] <+: t'.regions
  stack : t'.stack = (t.regions.length, phase) :: t.stack

private theorem Resumes.ordered_right (h : t.Resumes t') : t'.Ordered := by
  rw [Ordered, h.stack]
  exact Linked.mono h.ordered h.regions

namespace Inside

private theorem region? (h : t.Inside r phase t₁) : t₁.region? t.regions.length = some r := by
  obtain ⟨more, hmore⟩ := h.regions
  rw [RegionTracker.region?, ← hmore]
  simp

private theorem regions_le (h : t.Inside r phase t₁) : t.regions <+: t₁.regions :=
  (List.prefix_append _ _).trans h.regions

private theorem resumes (h : t.Inside r phase t₁) (h' : t₁.Resumes t₂) : t.Inside r phase t₂ :=
  ⟨h'.ordered_right, h.regions.trans h'.regions, h'.stack.trans h.stack⟩

/-- The region passes to another phase. -/
private theorem enters (h : t.Inside r phase t₁) (phase' : Phase) :
    t.Inside r phase' ⟨t₁.regions, (t.regions.length, phase') :: t.stack⟩ := by
  have hordered := h.ordered
  rw [Ordered, h.stack] at hordered
  exact ⟨hordered, h.regions, rfl⟩

private theorem closes (h : t.Inside r phase t₁) (ht : t.Ordered) : t.Resumes ⟨t₁.regions, t.stack⟩ :=
  ⟨ht, h.regions_le, rfl⟩

end Inside

/-! ### Runs over parts of code -/

/-- The tracker walks over a part of code that starts with statement `i`. -/
inductive Runs (position : Nat → Nat) :
    Nat → RegionTracker → List Statement → RegionTracker → Prop
  | nil {i : Nat} {t : RegionTracker} : Runs position i t [] t
  | cons {i : Nat} {t t₁ t' : RegionTracker} {s : Statement} {stack : RegionStack}
      {rest : List Statement} : t.Steps s (position i) stack t₁ →
      Runs position (i + 1) t₁ rest t' → Runs position i t (s :: rest) t'

variable {position : Nat → Nat}

private theorem Runs.one (h : t.Steps s (position i) stack t') : Runs position i t [s] t' := .cons h .nil

private theorem Runs.append {a b : List Statement} (ha : Runs position i t a t₁)
    (hb : Runs position (i + a.length) t₁ b t') : Runs position i t (a ++ b) t' := by
  induction ha with
  | nil => exact hb
  | @cons i t t₁ t₂ s stack rest hstep _ ih =>
    refine .cons hstep (ih ?_)
    rw [List.length_cons, Nat.add_comm rest.length, ← Nat.add_assoc] at hb
    exact hb

/-- The steps of a run, by the number of the statement. -/
private theorem Runs.exists_steps (h : Runs position i t part t') :
    ∃ (tracker : Nat → RegionTracker) (stack : Nat → RegionStack), tracker 0 = t ∧
      tracker part.length = t' ∧ ∀ {k s}, part[k]? = some s →
        (tracker k).Steps s (position (i + k)) (stack k) (tracker (k + 1)) := by
  induction h with
  | @nil i t => exact ⟨fun _ ↦ t, fun _ ↦ [], rfl, rfl, nofun⟩
  | @cons i t t₁ t' s stack rest hstep _ ih =>
    obtain ⟨tracker, stackOf, hstart, hend, hsteps⟩ := ih
    refine ⟨prepend t tracker, prepend stack stackOf, rfl, hend, ?_⟩
    intro k u hu
    cases k with
    | zero =>
      cases hu
      rw [← hstart] at hstep
      exact hstep
    | succ k =>
      have := hsteps (k := k) hu
      rwa [Nat.add_assoc, Nat.add_comm 1] at this

end RegionTracker

/-! ### Laid out code -/

section Protect

open RegionTracker

variable {c f : Option String} {e : String}

private theorem steps_try (t : RegionTracker) (p : Nat) (h : c.isSome ∨ f.isSome) :
    t.Steps (.of .enterTry [Lowering.optionalLabel c, Lowering.optionalLabel f, .label e]) p t.stack
      ⟨t.regions ++ [⟨t.stack, p, c, f, e⟩], (t.regions.length, .inTry) :: t.stack⟩ := by
  refine .opens rfl ?_
  cases c with
  | some c => cases f <;> rfl
  | none =>
    obtain ⟨f, rfl⟩ := Option.isSome_iff_exists.mp (h.resolve_left nofun)
    rfl

/-- A run over a handler, if there is one. -/
private theorem RegionTracker.Inside.exists_runs_handler (position : Nat → Nat) (i : Nat)
    (handler : List Statement) (h : t.Inside r .inTry t₁)
    (hhandler : ∀ {t₁}, t.Inside r .inCatch t₁ →
      ∃ t₂, Runs position (i + 1) t₁ handler t₂ ∧ t₁.Resumes t₂) :
    ∃ phase t₂, phase ≠ .inFinally ∧ t.Inside r phase t₂ ∧
      Runs position i t₁ (r.catchLabel.elim [] fun l ↦ .label l :: handler) t₂ := by
  cases hc : r.catchLabel with
  | none => exact ⟨.inTry, t₁, by decide, h, .nil⟩
  | some l =>
    have hcross : t₁.crossLabel l = .ok ((t.regions.length, .inCatch) :: t.stack) := by
      simp only [crossLabel, h.stack, h.region?, hc, BEq.rfl, if_true]
    obtain ⟨t₂, hruns, hresumes⟩ := hhandler (h.enters .inCatch)
    exact ⟨.inCatch, t₂, by decide, (h.enters .inCatch).resumes hresumes, .cons (.crosses rfl hcross) hruns⟩

/-- A run over a cleanup, if there is one, and the label behind a region. -/
private theorem RegionTracker.Inside.exists_runs_end (position : Nat → Nat) (i : Nat)
    (cleanup : List Statement) (h : t.Inside r phase t₁) (ht : t.Ordered)
    (hphase : phase ≠ .inFinally) (hcatch : ∀ l, r.finallyLabel = some l → r.catchLabel ≠ some l)
    (hend : r.catchLabel ≠ some r.endLabel) (hlabel : isPhaseMarker r.endLabel = false)
    (hdisowns : ∀ {t'}, t.Resumes t' → t'.Disowns r.endLabel)
    (hcleanup : ∀ {t₁}, t.Inside r .inFinally t₁ →
      ∃ t₂, Runs position (i + 1) t₁ cleanup t₂ ∧ t₁.Resumes t₂) :
    ∃ t', t.Resumes t' ∧ Runs position i t₁ (r.finallyLabel.elim [] (fun l ↦ Statement.label l ::
      (cleanup ++ [Statement.of .endFinally []])) ++ [Statement.label r.endLabel]) t' := by
  cases hf : r.finallyLabel with
  | none =>
    have hcross : t₁.crossLabel r.endLabel = .ok t.stack := by
      simp only [crossLabel, h.stack, h.region?, beq_eq_false_iff_ne.mpr hend, hf, BEq.rfl]
      rfl
    exact ⟨_, h.closes ht, .one (.crosses rfl hcross)⟩
  | some l =>
    have hcross : t₁.crossLabel l = .ok ((t.regions.length, .inFinally) :: t.stack) := by
      simp only [crossLabel, h.stack, h.region?, beq_eq_false_iff_ne.mpr (hcatch l hf), hf, BEq.rfl,
        beq_eq_false_iff_ne.mpr hphase, Bool.false_eq_true, if_false, if_true]
    obtain ⟨t₂, hruns, hresumes⟩ := hcleanup (h.enters .inFinally)
    have hinside := (h.enters .inFinally).resumes hresumes
    have hclosed := hinside.closes ht
    refine ⟨_, hclosed, .cons (.crosses rfl hcross) ?_⟩
    exact (hruns.append (.one (.closes rfl hinside.stack))).append
      (.one (.crosses rfl (crossLabel_of_disowns (hdisowns hclosed) hlabel)))

/-- Every protected construct has a handler or a cleanup. -/
def Guards (code : List Statement) : Prop :=
  ∀ {c f : Option String} {e : String}, .of .enterTry [Lowering.optionalLabel c,
    Lowering.optionalLabel f, .label e] ∈ code → c.isSome ∨ f.isSome

private theorem Guards.sublist {a b : List Statement} (h : Guards b) (hab : a.Sublist b) : Guards a :=
  fun hs ↦ h (hab.mem hs)

private theorem Guards.protected {body handler cleanup : List Statement}
    (h : Guards (protectedCode c f e body handler cleanup)) (hhandler : c = none → handler = [])
    (hcleanup : f = none → cleanup = []) :
    (c.isSome ∨ f.isSome) ∧ Guards body ∧ Guards handler ∧ Guards cleanup := by
  unfold protectedCode at h
  refine ⟨h List.mem_cons_self, h.sublist ?_, h.sublist ?_, h.sublist ?_⟩
  · exact (List.sublist_append_left _ _).cons _
  · refine .cons _ (.trans ?_ (List.sublist_append_right _ _))
    refine .trans ?_ (List.sublist_append_left _ _)
    cases c with
    | none =>
      rw [hhandler rfl]
      exact List.nil_sublist _
    | some l => exact List.sublist_cons_self _ _
  · refine .cons _ (.trans ?_ (List.sublist_append_right _ _))
    refine .trans ?_ (List.sublist_append_right _ _)
    refine .trans ?_ (List.sublist_append_left _ _)
    cases f with
    | none =>
      rw [hcleanup rfl]
      exact List.nil_sublist _
    | some l => exact (List.sublist_append_left _ _).cons _

/-- A protected construct guards its code if it has a handler or a cleanup and its parts do. -/
theorem Guards.of_parts {body handler cleanup : List Statement} (hsome : c.isSome ∨ f.isSome)
    (hbody : Guards body) (hhandler : Guards handler) (hcleanup : Guards cleanup) :
    Guards (protectedCode c f e body handler cleanup) := by
  intro c' f' e' hs
  rcases mem_protectedCode hs with hs | hs | hs | hs | hop | hop
  · cases c <;> cases f <;> cases c' <;> cases f' <;> first | exact hsome | cases hs
  · exact hbody hs
  · exact hhandler hs
  · exact hcleanup hs
  · cases hop
  · cases hop

private theorem Laid.guards {targets near own : List String} {lo hi : Nat}
    (h : Laid true pool targets near lo hi own part) : Guards part := by
  induction h with
  | nil => exact fun hs ↦ absurd hs List.not_mem_nil
  | append _ _ iha ihb => exact fun hs ↦ (List.mem_append.mp hs).elim iha ihb
  | statement hop | branch hop | switch hop =>
    intro c f e hs
    rw [← List.mem_singleton.mp hs] at hop
    cases hop
  | label =>
    intro c f e hs
    cases List.mem_singleton.mp hs
  | construct _ _ _ ih => exact ih
  | protect _ hsome _ _ _ _ _ _ _ _ ihb ihh ihc =>
    exact Guards.of_parts (hsome rfl) ihb ihh ihc

/-- The tracker walks over code in which every protected construct has a handler or a cleanup. -/
theorem Laid.exists_runs {sealed : Bool} {targets near own : List String} {lo hi : Nat}
    (h : Laid sealed pool targets near lo hi own part) (position : Nat → Nat) (i : Nat)
    (ht : t.Ordered) (hbelow : t.Below lo)
    (hown : ∀ l ∈ own, t.Disowns l ∧ isPhaseMarker l = false) (hguards : Guards part) :
    ∃ t', Runs position i t part t' ∧ t.Resumes t' := by
  have hplain {i : Nat} {t : RegionTracker} (ht : t.Ordered) {s : Statement} (hlabel : s.op ≠ .label)
      (hopen : s.op ≠ .enterTry) (hclose : s.op ≠ .endFinally) :
      ∃ t', Runs position i t [s] t' ∧ t.Resumes t' :=
    ⟨t, .one (.plain (Statement.label?_of_ne hlabel) hopen hclose), ht, List.prefix_rfl, rfl⟩
  induction h generalizing t i with
  | nil => exact ⟨t, .nil, ht, List.prefix_rfl, rfl⟩
  | @append targets near own own' lo mid hi a b ha hb iha ihb =>
    rw [List.forall_mem_append] at hown
    obtain ⟨fresh, hfresh⟩ := ha.freshLabels
    obtain ⟨t₁, hruns, hresumes⟩ := iha i ht hbelow hown.1 (hguards.sublist (List.sublist_append_left _ _))
    obtain ⟨t₂, hruns', hresumes'⟩ := ihb (i + a.length) hresumes.ordered_right
      (hresumes.below (hbelow.mono hfresh.le))
      (fun l hl ↦ ⟨hresumes.disowns (hown.2 l hl).1, (hown.2 l hl).2⟩)
      (hguards.sublist (List.sublist_append_right _ _))
    exact ⟨t₂, hruns.append hruns', ht, hresumes.regions.trans hresumes'.regions,
      hresumes'.stack.trans hresumes.stack⟩
  | @statement _ _ _ s hs =>
    have hop : s.op ≠ .label ∧ s.op ≠ .enterTry ∧ s.op ≠ .endFinally := by
      revert hs
      cases s.op <;> decide
    exact hplain ht hop.1 hop.2.1 hop.2.2
  | @branch _ _ _ s l hs =>
    have hop : s.op ≠ .label ∧ s.op ≠ .enterTry ∧ s.op ≠ .endFinally := by
      revert hs
      cases s.op <;> decide
    exact hplain ht hop.1 hop.2.1 hop.2.2
  | @switch _ _ _ s hs => exact hplain ht (by rw [hs]; decide) (by rw [hs]; decide) (by rw [hs]; decide)
  | @label _ _ _ l =>
    obtain ⟨hdisowns, hl⟩ := hown l List.mem_cons_self
    exact ⟨t, .one (.crosses rfl (crossLabel_of_disowns hdisowns hl)), ht, List.prefix_rfl, rfl⟩
  | @construct _ _ labels own n _ _ hlabels hperm _ ih =>
    refine ih i ht (hbelow.mono (Nat.le_succ n)) (fun l hl ↦ ?_) hguards
    have hl := hperm.mem_iff.mp hl
    exact ⟨hbelow.disowns (Nat.le_of_eq (hlabels.number l hl).symm), hlabels.plain l hl⟩
  | @protect targets near clauses own n mid mid' hi c f e body handler cleanup hlabels _ hb _
      hperm hh hhandler _ _ hcleanup ihb ihh ihc =>
    obtain ⟨hsome, hguardsB, hguardsH, hguardsC⟩ := hguards.protected hhandler hcleanup
    obtain ⟨freshB, hfreshB⟩ := hb.freshLabels
    obtain ⟨freshH, hfreshH⟩ := hh.freshLabels
    obtain ⟨hnodup, hnumber, -, hunmarked⟩ := hlabels
    rw [List.forall_mem_cons] at hunmarked
    have hsplit : (c.toList ++ f.toList) ++ e :: clauses =
        (c.toList ++ (f.toList ++ [e])) ++ clauses := by simp
    rw [hsplit] at hnodup hnumber
    rw [List.forall_mem_append] at hnumber
    have hdisjoint := List.disjoint_of_nodup_append hnodup
    have hnodup := hnodup.of_append_left
    -- inside the region all labels with smaller numbers are spoken for
    have hinside {phase : Phase} {t₁ : RegionTracker}
        (h : t.Inside ⟨t.stack, position i, c, f, e⟩ phase t₁) : t₁.Below (n + 1) :=
      hbelow.inside ht h.regions_le h.stack h.region? fun l hl ↦ hnumber.1 l (owns_iff.mp hl)
    have hclauses {phase : Phase} {t₁ : RegionTracker}
        (h : t.Inside ⟨t.stack, position i, c, f, e⟩ phase t₁) (l : String) (hl : l ∈ clauses) :
        t₁.Disowns l := by
      refine hbelow.disowns_inside ht h.regions_le h.stack h.region? (hnumber.2 l hl) ?_
      rw [← Bool.not_eq_true, owns_iff]
      exact fun hl' ↦ hdisjoint hl' hl
    have htry := steps_try (e := e) t (position i) hsome
    have hopened : t.Inside ⟨t.stack, position i, c, f, e⟩ .inTry
        ⟨t.regions ++ [⟨t.stack, position i, c, f, e⟩], (t.regions.length, .inTry) :: t.stack⟩ :=
      ⟨(htry.linked ht).2, List.prefix_rfl, rfl⟩
    obtain ⟨t₁, hbody, hresumes⟩ := ihb (i + 1) hopened.ordered (hinside hopened) (List.forall_mem_nil _)
      hguardsB
    have hopened := hopened.resumes hresumes
    obtain ⟨phase, t₂, hphase, hcaught, hhandler⟩ := hopened.exists_runs_handler position
      (i + 1 + body.length) handler fun h ↦
        ihh (i + 1 + body.length + 1) h.ordered ((hinside h).mono hfreshB.le) (fun l hl ↦
          ⟨hclauses h l (hperm.mem_iff.mp hl), hunmarked.2 l (hperm.mem_iff.mp hl)⟩) hguardsH
    have hcf (l : String) (hf : f = some l) : c ≠ some l := by
      rintro rfl
      rw [hf] at hnodup
      simp at hnodup
    have hce : c ≠ some e := by
      rintro rfl
      simp at hnodup
    obtain ⟨t', hclosed, hend⟩ := hcaught.exists_runs_end position
      (i + 1 + body.length + (c.elim [] fun l ↦ Statement.label l :: handler).length) cleanup ht
      hphase hcf hce hunmarked.1
      (fun h ↦ (h.below hbelow).disowns (Nat.le_of_eq (hnumber.1 e (by simp)).symm))
      fun h ↦ ihc _ h.ordered ((hinside h).mono (Nat.le_trans hfreshB.le hfreshH.le))
        (List.forall_mem_nil _) hguardsC
    exact ⟨t', .cons htry (hbody.append (hhandler.append hend)), hclosed⟩

end Protect

/-! ### Walks at other positions -/

/-- The region with its start moved. -/
def Region.relocate (f : Nat → Nat) (r : Region) : Region := { r with start := f r.start }

namespace RegionTracker

/-- The tracker with the starts of its regions moved. -/
def relocate (f : Nat → Nat) (t : RegionTracker) : RegionTracker :=
  { t with regions := t.regions.map (Region.relocate f) }

private theorem region?_relocate (f : Nat → Nat) (t : RegionTracker) (id : RegionId) :
    (t.relocate f).region? id = (t.region? id).map (Region.relocate f) :=
  List.getElem?_map

private theorem crossLabel_relocate (f : Nat → Nat) (t : RegionTracker) (l : String) :
    (t.relocate f).crossLabel l = t.crossLabel l := by
  have howns (r? : Option Region) : (r?.map (Region.relocate f)).any (·.owns l) =
      r?.any (·.owns l) := by
    rw [Option.any_map]
    rfl
  have hstack : (t.relocate f).stack = t.stack := rfl
  simp only [crossLabel, hstack, region?_relocate, howns]
  cases t.stack with
  | nil => rfl
  | cons x outer =>
    obtain ⟨id, phase⟩ := x
    dsimp only
    cases t.region? id <;> rfl

/-- The positions that a walk is told show only in the starts of regions. -/
private theorem Steps.relocate {p : Nat} (h : t.Steps s p stack t') (f : Nat → Nat) :
    (t.relocate f).Steps s (f p) stack (t'.relocate f) := by
  cases h with
  | plain hl hopen hclose => exact .plain hl hopen hclose
  | crosses hl hcross =>
    refine .crosses hl ?_
    rw [crossLabel_relocate, hcross]
  | @opens r hop hopen =>
    have hmoved : Region.open? s (f p) t.stack = .ok (r.relocate f) := by
      unfold Region.open? at hopen ⊢
      split at hopen
      · split at hopen <;> cases hopen
        rfl
      · cases hopen
    have hregions : (⟨t.regions ++ [r], (t.regions.length, .inTry) :: t.stack⟩ : RegionTracker).relocate
        f = ⟨(t.relocate f).regions ++ [r.relocate f],
          ((t.relocate f).regions.length, .inTry) :: t.stack⟩ := by
      simp [RegionTracker.relocate]
    rw [hregions]
    exact .opens hop hmoved
  | closes hop hstack => exact .closes hop hstack

end RegionTracker

namespace Walk

/-- The walk at other positions. -/
def relocate (w : Walk code) (f : Nat → Nat) : Walk code where
  position i := f (w.position i)
  tracker i := (w.tracker i).relocate f
  stack := w.stack
  start := by
    rw [w.start]
    rfl
  steps hs := (w.steps hs).relocate f

private theorem catches_relocate (w : Walk code) (f : Nat → Nat) :
    catches (w.relocate f).allRegions = catches w.allRegions := by
  funext x
  rw [catches, catches, show (w.relocate f).allRegions = w.allRegions.map (Region.relocate f) from rfl,
    List.getElem?_map, Option.any_map]
  rfl

private theorem Leaves.relocate (h : w.Leaves i s chain) (f : Nat → Nat) :
    (w.relocate f).Leaves i s chain := by
  cases h with
  | ret hop => exact .ret hop
  | throw hop =>
    rw [← w.catches_relocate f]
    exact .throw hop
  | jump hop hl hj hstack hleft => exact .jump hop hl hj hstack hleft
  | stays hret hthrow hjump => exact .stays hret hthrow hjump

end Walk

/-- There is a walk over code in which every protected construct has a handler or a cleanup. -/
theorem Laid.exists_walk {sealed : Bool} (h : Laid sealed pool [] [] 0 n [] (code.map Statement.bare))
    (hguards : Guards (code.map Statement.bare)) : ∃ w : Walk code, w.position = id := by
  obtain ⟨t', hruns, -⟩ := h.exists_runs id 0 (t := {}) trivial (List.forall_mem_nil _)
    (List.forall_mem_nil _) hguards
  obtain ⟨tracker, stack, hstart, -, hsteps⟩ := hruns.exists_steps
  refine ⟨⟨id, tracker, stack, hstart, fun {i s} hs ↦ ?_⟩, rfl⟩
  have hbare : (code.map Statement.bare)[i]? = some s.bare := by rw [List.getElem?_map, hs]; rfl
  have := hsteps hbare
  rw [Nat.zero_add] at this
  exact RegionTracker.steps_bare.mp this

/-! ### Insertions -/

/-- A walk that knows how many leaves each statement needs inserts them. -/
private theorem exists_insertLeavesFrom (labels : LabelTable) (before : List Statement) (need : Nat → Nat)
    (tracker : Nat → RegionTracker) (stack : Nat → RegionStack)
    (hend : (tracker code.length).stack = []) (hcode : ∀ s ∈ code, s.op ≠ .leave)
    (hbefore : leavesBefore before = 0)
    (hall : ∀ {i s}, code[i]? = some s →
      (tracker i).Steps s (before.length + paddedStart need i) (stack i) (tracker (i + 1)) ∧
      leavesNeeded (tracker (i + 1)).regions (stackAt (tracker (i + 1)).regions (stack i).head?)
        (labels.makeRoom before.length need i) s (before.length + paddedStart need i) =
          .ok (need i)) :
    ∃ out, insertLeavesFrom (tracker 0) labels before code = .ok out ∧
      out.statements = before.reverse ++ padded need code := by
  induction code generalizing labels before need tracker stack with
  | nil =>
    refine ⟨⟨before.reverse, labels⟩, ?_, (List.append_nil _).symm⟩
    rw [insertLeavesFrom, RegionTracker.finish]
    rw [List.length_nil] at hend
    rw [hend]
    rfl
  | cons s rest ih =>
    rw [List.forall_mem_cons] at hcode
    obtain ⟨hstep, hneeded⟩ := hall (i := 0) (s := s) rfl
    rw [paddedStart, Nat.add_zero] at hstep hneeded
    have hneeded : leavesNeeded (tracker 1).regions (stackAt (tracker 1).regions (stack 0).head?) labels
        s before.length = .ok (need 0) := hneeded
    have hlength : (s :: (List.replicate (need 0) Statement.leave ++ before)).length =
        before.length + need 0 + 1 := by
      rw [List.length_cons, List.length_append, List.length_replicate]
      omega
    have hbefore' : leavesBefore (s :: (List.replicate (need 0) Statement.leave ++ before)) = 0 := by
      rw [leavesBefore, List.takeWhile_cons_of_neg (by simpa using hcode.1)]
      rfl
    have hneed : prepend (need 0) (fun i ↦ need (i + 1)) = need := by
      funext i
      cases i <;> rfl
    obtain ⟨out, hout, hstatements⟩ := ih (labels.shift before.length (need 0))
      (s :: (List.replicate (need 0) Statement.leave ++ before)) (fun i ↦ need (i + 1))
      (fun i ↦ tracker (i + 1)) (fun i ↦ stack (i + 1)) hend hcode.2 hbefore' (by
        intro i u hu
        have hposition : before.length + need 0 + 1 + paddedStart (fun i ↦ need (i + 1)) i =
            before.length + paddedStart need (i + 1) := by
          rw [paddedStart_succ]
          omega
        rw [hlength, hposition, ← LabelTable.makeRoom_prepend, hneed]
        exact hall (i := i + 1) hu)
    refine ⟨out, ?_, ?_⟩
    · rw [insertLeavesFrom]
      simp only [RegionTracker.step_of_steps hstep, hneeded, hbefore, Nat.sub_zero, bind, Except.bind]
      exact hout
    · rw [hstatements, List.reverse_cons, List.reverse_append, List.reverse_replicate]
      simp [padded]

/-- Inserting leaves into the code of a method succeeds if no jump leaves a cleanup. -/
theorem LoweredFunction.WellFormed.exists_withLeaves {f : LoweredFunction} (h : f.WellFormed true) :
    ∃ (w : Walk f.code) (labels : LabelTable) (need : Nat → Nat),
      w.Inserts true f.constants labels need ∧
        f.withLeaves = .ok { f with code := padded need f.code } := by
  obtain ⟨n, hlaid⟩ := h.laid
  obtain ⟨w, hw⟩ := hlaid.exists_walk hlaid.guards
  have hneed (i : Nat) : ∃ n, ∀ s, f.code[i]? = some s →
      ∃ chain, w.Leaves i s chain ∧ chain.length = n := by
    cases hs : f.code[i]? with
    | none => exact ⟨0, nofun⟩
    | some s =>
      obtain ⟨chain, hleaves⟩ := ((hlaid.shaped w).leads hs).exists_leaves fun _ _ _ _ ↦ .inl rfl
      refine ⟨chain.length, ?_⟩
      rintro _ ⟨⟩
      exact ⟨chain, hleaves, rfl⟩
  choose need hneed using hneed
  -- the stacks do not depend on positions, so the same walk is told where statements will be
  let w' := w.relocate (paddedStart need)
  have hposition (i : Nat) : w'.position i = paddedStart need i := by
    change paddedStart need (w.position i) = _
    rw [hw]
    rfl
  have hshaped := hlaid.shaped w'
  have hbuilt : LabelTable.build f.code = .ok (LabelTable.entriesFrom 0 f.code) :=
    LabelTable.build_eq_ok.mpr ⟨h.nodup_labelsOf, rfl⟩
  have hleaving : w'.Leaving (LabelTable.entriesFrom 0 f.code) need := by
    refine ⟨hposition, fun {i s} hs ↦ ?_, hshaped.balanced⟩
    obtain ⟨chain, hleaves, hlength⟩ := hneed i s hs
    rw [← w'.leavesNeeded_allRegions hs, ← hlength]
    exact (hleaves.relocate _).leavesNeeded_eq hshaped hs
      (w'.located_spread hbuilt fun k _ ↦ hposition k) (Nat.le_refl i) _
  refine ⟨w', _, need, ⟨hleaving, hbuilt, hshaped, fun hs ↦ h.ne_leave _ hs,
    fun hs ↦ (h.sound _ hs).branch⟩, ?_⟩
  obtain ⟨out, hout, hstatements⟩ := exists_insertLeavesFrom
    (LabelTable.entriesFrom 0 f.code) [] need w'.tracker w'.stack hleaving.finished h.ne_leave rfl
    fun {i s} hs ↦ by
      rw [List.length_nil, Nat.zero_add, LabelTable.makeRoom_eq_spread]
      exact ⟨hposition i ▸ w'.steps hs, hleaving.needed hs⟩
  have hinsert : insertLeaves f.code = .ok out := by
    rw [insertLeaves, hbuilt]
    rw [w'.start] at hout
    exact hout
  rw [withLeaves, hinsert, show padded need f.code = out.statements from hstatements.symm]
  rfl

end MethodCompiler
