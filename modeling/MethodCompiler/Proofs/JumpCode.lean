import MethodCompiler.Proofs.ControlCode

/-!
# The code of jumps and switches

A switch compares its value with one case after the other and goes to the section of the first one that
fits. Its sections are entered at their labels only: control that comes to the end of a section stops.
-/

namespace MethodCompiler.Lowering

variable {V : Type} {M : Machine V} {S : Meaning V} {ctx : Context} {env : Surroundings}

/-! ### Ways out -/

/-- A jump to where an outcome goes. Scopes without locals have nothing to clear on the way. -/
private theorem performs_jumpOut {l : String} {depth : Nat} {o : Outcome} (ho : o ≠ .next)
    (hplace : ∀ code, Placed env.targets code →
      ∃ k, labelAt? code k = some l ∧ ∀ past, EndsAt code env.targets past o k)
    (hleast : ∀ n, leastSteps n o = 0) :
    Performs M ctx env (jumpOut ctx l depth) fun _ e ↦ (o, e) := by
  intro st u st' hl hrun
  have hadds : Adds st st' [.jump l] := by
    obtain ⟨_, st₁, hclear, hjump⟩ := exists_of_run_bind hrun
    obtain ⟨_, st₂, hget, hclear⟩ := exists_of_run_bind hclear
    cases hget
    simp only [hl.flatten] at hclear
    cases hclear
    exact adds_of_emitJump hjump
  refine ⟨_, hadds, fun _ ↦ ⟨?_, fun _ _ hnext ↦ absurd hnext ho⟩⟩
  intro code position hd hat hp n σ e hh
  obtain ⟨k, hk, hend⟩ := hplace code hp
  refine ⟨k, σ, hend _, hh, ?_⟩
  rw [hleast]
  exact Machine.Branches.jump l σ code position k hd hat hk

/-- The code of `break` leaves the innermost construct. -/
theorem performs_lowerBreak (span : Span) :
    Performs M ctx env (lowerBreak ctx env span) fun _ e ↦ (.breakOut, e) := by
  unfold lowerBreak
  split
  · next t ht =>
    refine performs_jumpOut nofun (fun code hp ↦ ?_) fun _ ↦ rfl
    obtain ⟨k, hk⟩ := (hp t (List.mem_of_mem_head? ht)).1
    exact ⟨k, hk, fun _ ↦ ⟨t, ht, hk⟩⟩
  · intro st u st' _ hrun
    cases hrun

/-- The code of `continue` goes on with the innermost loop. -/
theorem performs_lowerContinue (span : Span) :
    Performs M ctx env (lowerContinue ctx env span) fun _ e ↦ (.continueLoop, e) := by
  unfold lowerContinue
  split
  · next l depth hfind =>
    refine performs_jumpOut nofun (fun code hp ↦ ?_) fun _ ↦ rfl
    obtain ⟨t, ht, hmap⟩ := List.exists_of_findSome?_eq_some hfind
    obtain ⟨l', hl', hpair⟩ := Option.map_eq_some_iff.mp hmap
    cases hpair
    obtain ⟨k, hk⟩ := (hp t ht).2 l hl'
    exact ⟨k, hk, fun _ ↦ ⟨l, _, hfind, hk⟩⟩
  · intro st u st' _ hrun
    cases hrun

/-- A statement that ends the run stays where it is. -/
private theorem lands_of_opcodeAt {code : List Statement} {targets : List JumpTarget} {past n p : Nat}
    {σ : Store V} {e : Env V} {o : Outcome} (hend : EndsAt code targets past o p)
    (hleast : leastSteps n o = 0) (hh : Holds M ctx [] none σ e) :
    Lands M ctx code targets past n (p, σ) (o, e) := by
  refine ⟨p, σ, hend, hh, ?_⟩
  rw [hleast]
  exact .refl _

private theorem opcodeAt?_of_codeAt {code a : List Statement} {position : Nat} {s : Statement}
    (hat : CodeAt code position (s :: a)) : opcodeAt? code position = some s.op := by
  rw [opcodeAt?, hat.head]
  rfl

/-- The code of `return` ends the run. -/
theorem performs_ret : Performs M ctx env (emit .ret []) fun _ e ↦ (.returned, e) := by
  intro st u st' _ hrun
  obtain ⟨_, hrun', hadds⟩ := adds_emit .ret [] st
  cases hrun'.symm.trans hrun
  refine ⟨_, hadds, fun _ ↦ ⟨?_, nofun⟩⟩
  intro code position _ hat _ n σ e hh
  exact lands_of_opcodeAt (opcodeAt?_of_codeAt hat) rfl hh

/-! ### The section for a value -/

/-- The labels of the cases that fit are those of the sections with such a case, in order. -/
private theorem find?_switchCases (fits : Literal → Bool) (n i : Nat) (sections : List SwitchSection) :
    ((switchCases n i sections).find? (fits ·.1)).map (·.2) =
      (sections.findIdx? (·.cases.any fits)).map fun j ↦ caseLabel n (i + j) := by
  induction sections generalizing i with
  | nil => rfl
  | cons s rest ih =>
    have hmap : (s.cases.map (·, caseLabel n i)).find? (fits ·.1) =
        (s.cases.find? fits).map (·, caseLabel n i) := by
      rw [List.find?_map]
      rfl
    rw [switchCases, List.find?_append, hmap, List.findIdx?_cons]
    cases hfind : s.cases.find? fits with
    | some lit =>
      rw [if_pos]
      · rfl
      · rw [List.any_eq_true]
        exact ⟨lit, List.mem_of_find?_eq_some hfind, List.find?_some hfind⟩
    | none =>
      have hany : s.cases.any fits = false := by
        rw [List.any_eq_false]
        exact List.find?_eq_none.mp hfind
      rw [hany, if_neg (by decide), Option.map_map]
      refine (ih (i + 1)).trans ?_
      congr 1
      funext j
      exact congrArg (caseLabel n) (Nat.add_right_comm i 1 j)

/-- The label that a switch goes to for a value. -/
private theorem label_section? (v : V) (ty : Ty) (n : Nat) (sections : List SwitchSection) :
    (((switchCases n 0 sections).find? (S.fits v ty ·.1)).map (·.2)).getD
        (defaultLabel n sections) =
      ((S.section? v ty sections).map (caseLabel n)).getD (labelName "switch" n "end") := by
  rw [find?_switchCases, Meaning.section?, defaultLabel]
  simp only [Nat.zero_add]
  cases sections.findIdx? (·.cases.any (S.fits v ty)) with
  | some i => rfl
  | none => cases sections.findIdx? (·.labels.any CaseLabel.isDefault) <;> rfl

/-- The comparisons go to the label of the first case that fits, or past them. -/
private theorem emits_compareCases (hI : Implements M S) (span : Span) (value : Operand) (ty : Ty)
    (cases : List (Literal × String)) :
    Emits (compareCases span value ty cases) fun _ _ part ↦ ∀ code position,
      (labelsOf code).Nodup → CodeAt code position part →
      (∀ c ∈ cases, ∃ k, labelAt? code k = some c.2) → ∀ σ, ∃ q,
        M.Reaches code 0 (position, σ) (q, σ) ∧
        (cases.find? (S.fits (M.read σ value) ty ·.1)).elim (q = position + part.length)
          fun c ↦ labelAt? code q = some c.2 := by
  induction cases with
  | nil =>
    intro st u st' _ hrun
    cases hrun
    exact ⟨[], (Extends.refl st).toAdds, fun _ position _ _ _ σ ↦ ⟨position, .refl _, rfl⟩⟩
  | cons c rest ih =>
    obtain ⟨lit, l⟩ := c
    intro st u st' hl hrun
    obtain ⟨v, st₁, hlit, hrun₁⟩ := exists_of_run_bind hrun
    obtain ⟨_, st₂, hemit, hrun₂⟩ := exists_of_run_bind hrun₁
    obtain ⟨rfl, hv⟩ : st = st₁ ∧ literalValue lit ty span = .ok v := by
      cases h : literalValue lit ty span <;> rw [h] at hlit <;> cases hlit
      exact ⟨rfl, rfl⟩
    obtain ⟨_, hemit', hadds⟩ := adds_emit .jumpEq [value, .immediate v, .label l] st
    cases hemit'.symm.trans hemit
    obtain ⟨part, hadds', hrest⟩ := ih st₂ u st' (hadds.scopes ▸ hl) hrun₂
    refine ⟨_, hadds.trans hadds', fun code position hd hat hplaced σ ↦ ?_⟩
    obtain ⟨k, hk⟩ := hplaced _ List.mem_cons_self
    have htaken : M.taken .jumpEq [M.read σ value, M.immediate v] =
        S.fits (M.read σ value) ty lit := by
      rw [hI.immediate hv]
      exact hI.relation (show (ExprCode.binaryOpcode .eq false).branchFor? = some .jumpEq from rfl) _ _
    have hgo : M.Reaches code 0 (position, σ)
        (if S.fits (M.read σ value) ty lit then k else position + 1, σ) := by
      rw [← htaken]
      exact Machine.Branches.conditional (show Opcode.jumpEq.isConditionalBranch = true from rfl)
        [value, .immediate v] l σ code position k hd hat.left hk
    cases hfits : S.fits (M.read σ value) ty lit with
    | true =>
      rw [hfits] at hgo
      refine ⟨k, hgo, ?_⟩
      rw [List.find?_cons_of_pos (by exact hfits)]
      exact hk
    | false =>
      rw [hfits] at hgo
      obtain ⟨q, hreach, hq⟩ := hrest code _ hd hat.right
        (fun c hc ↦ hplaced c (List.mem_cons_of_mem _ hc)) σ
      refine ⟨q, hgo.andThen hreach, ?_⟩
      rw [List.find?_cons_of_neg (by rw [hfits]; decide), List.length_append, ← Nat.add_assoc]
      exact hq

/-! ### Sections -/

/-- Each of so many sections from number `i` on is entered at its label and does what `run` says. Control
does not leave it by its end. -/
def SectionsAt (M : Machine V) (ctx : Context) (targets : List JumpTarget) (n i count : Nat)
    (run : Nat → Nat → Env V → Outcome × Env V) (part : List Statement) : Prop :=
  ∀ code position, (labelsOf code).Nodup → CodeAt code position part → Placed targets code →
    ∀ j < count, ∃ k, labelAt? code k = some (caseLabel n (i + j)) ∧
      ∀ past m σ e, Holds M ctx [] none σ e → Lands M ctx code targets past m (k, σ)
        (Outcome.andThen (run j m e) fun e ↦ (.trapped, e))

/-- A `trap` stands after a section unless the section ends in a way out. -/
private theorem adds_of_trapFallthrough {body : List Stmt} {st st' : State} {u : Unit}
    (h : trapFallthrough body st = .ok u st') : ∃ part, Adds st st' part ∧
      (body.getLast?.any Stmt.isExplicitExit = false →
        ∃ s : Statement, s.op = .trap ∧ part = [s]) := by
  unfold trapFallthrough at h
  split at h <;> cases h
  · next hexit => exact ⟨[], (Extends.refl st).toAdds, fun hno ↦ by rw [hno] at hexit; cases hexit⟩
  · refine ⟨_, ⟨⟨rfl, rfl, Nat.le_refl _⟩, Array.toList_push⟩, fun _ ↦ ⟨_, ?_, rfl⟩⟩
    rfl

/-- A section of a switch runs its body from its label on, and the others follow. -/
theorem emits_section {n i count : Nat} {act rest : Lower Unit} {body : List Stmt}
    {run : Nat → Nat → Env V → Outcome × Env V} (h : Performs M ctx env act (run 0))
    (hexit : body.getLast?.any Stmt.isExplicitExit = true → ∀ m e, (run 0 m e).1 ≠ .next)
    (hrest : Emits rest fun _ _ ↦
      SectionsAt M ctx env.targets n (i + 1) count fun j ↦ run (j + 1)) :
    Emits (do
      emitLabel (caseLabel n i)
      act
      trapFallthrough body
      rest) fun _ _ ↦ SectionsAt M ctx env.targets n i (count + 1) run := by
  intro st u st' hl hrun
  obtain ⟨_, st₁, hlabel, hrun₁⟩ := exists_of_run_bind hrun
  obtain ⟨_, st₂, hact, hrun₂⟩ := exists_of_run_bind hrun₁
  obtain ⟨_, st₃, htrap, hrun₃⟩ := exists_of_run_bind hrun₂
  have hext₁ := extends_of_emitLabel hlabel
  have hl₁ : NoLocals st₁.scopes := hext₁.scopes ▸ hl
  obtain ⟨part₂, hadds₂, hsim⟩ := h st₁ _ st₂ hl₁ hact
  obtain ⟨hsim, -⟩ := hsim (not_closed_of_emitLabel hlabel)
  obtain ⟨part₃, hadds₃, hpart₃⟩ := adds_of_trapFallthrough htrap
  have hl₃ : NoLocals st₃.scopes := by
    rw [hadds₃.scopes, hadds₂.scopes]
    exact hl₁
  obtain ⟨part₄, hadds₄, hrest⟩ := hrest st₃ _ st' hl₃ hrun₃
  refine ⟨_, hext₁.toAdds.trans (hadds₂.trans (hadds₃.trans hadds₄)), ?_⟩
  intro code position hd hat hp j hj
  have hhead : CodeAt code position [.label (caseLabel n i)] := hat.left
  cases j with
  | zero =>
    refine ⟨position, hhead.labelAt, fun past m σ e hh ↦ ?_⟩
    have hbody := hsim code _ hd hat.right.left hp m σ e hh
    refine Lands.after (Machine.Executes.label _ σ code _ hd hhead) (hbody.andThen ?_)
    intro hnext τ hτ
    -- control can be at the end, so the section does not end in a way out
    obtain ⟨s, hs, hpart₃⟩ := hpart₃ (by
      rw [← Bool.not_eq_true]
      exact fun hany ↦ hexit hany m e hnext)
    have htrapAt := hat.right.right.left
    rw [hpart₃] at htrapAt
    exact lands_of_opcodeAt ((opcodeAt?_of_codeAt htrapAt).trans (congrArg some hs)) rfl hτ
  | succ j =>
    obtain ⟨k, hk, hlands⟩ :=
      hrest code _ hd hat.right.right.right hp j (Nat.lt_of_succ_lt_succ hj)
    rw [Nat.add_assoc, Nat.add_comm 1 j] at hk
    exact ⟨k, hk, hlands⟩

/-! ### Switches -/

/-- A run leaves a switch as the outcome of a section says. -/
private theorem Lands.leaveSwitch {inner : Surroundings} {code : List Statement} {past past' n : Nat}
    {c : Config V} {r : Outcome × Env V} {breakLabel : String}
    (hinner : Inside env inner breakLabel none)
    (h : Lands M ctx code inner.targets past' n c (Outcome.andThen r fun e ↦ (.trapped, e)))
    (hbreak : ∀ p τ, EndsAt code inner.targets past' .breakOut p →
      M.Reaches code 0 (p, τ) (past, τ)) :
    Lands M ctx code env.targets past n c (Meaning.leaveSwitch r) := by
  obtain ⟨o, e⟩ := r
  obtain ⟨p, τ, hp, hh, hreach⟩ := h
  cases o with
  | breakOut => exact .next hh (hreach.andThen (hbreak p τ hp))
  | continueLoop =>
    obtain ⟨depth, hinner⟩ := hinner
    refine ⟨p, τ, ?_, hh, hreach⟩
    obtain ⟨l, depth', hl, hk⟩ := hp
    rw [hinner] at hl
    exact ⟨l, depth', hl, hk⟩
  | next | returned | trapped | unfinished => exact ⟨p, τ, hp, hh, hreach⟩

private theorem mem_switchCases {n i : Nat} {sections : List SwitchSection} {c : Literal × String}
    (h : c ∈ switchCases n i sections) : ∃ j < sections.length, c.2 = caseLabel n (i + j) := by
  induction sections generalizing i with
  | nil => cases h
  | cons s rest ih =>
    rcases List.mem_append.mp h with h | h
    · obtain ⟨lit, -, rfl⟩ := List.mem_map.mp h
      exact ⟨0, Nat.succ_pos _, rfl⟩
    · obtain ⟨j, hj, hc⟩ := ih h
      refine ⟨j + 1, Nat.succ_lt_succ hj, ?_⟩
      rw [hc, Nat.add_assoc, Nat.add_comm 1 j]

private theorem section?_lt {v : V} {ty : Ty} {sections : List SwitchSection} {i : Nat}
    (h : S.section? v ty sections = some i) : i < sections.length := by
  rw [Meaning.section?, Option.or_eq_some_iff] at h
  rcases h with h | ⟨-, h⟩ <;> exact (List.findIdx?_eq_some_iff_findIdx_eq.mp h).1

/-- The sections of a switch and its end. -/
private theorem emits_sections {done : String} {lowered : Surroundings → Lower Unit}
    {P : List JumpTarget → List Statement → Prop}
    (h : ∀ inner, Inside env inner done none → Emits (lowered inner) fun _ _ ↦ P inner.targets) :
    Emits (inScope ctx do
      inside env done none lowered
      emitLabel done) fun _ after part ↦ ¬Closed after ∧ ∃ inner part',
        Inside env inner done none ∧ part = part' ++ [Statement.label done] ∧ P inner.targets part' := by
  apply Emits.inScope
  intro st u st' hl hrun
  obtain ⟨_, st₁, hrun₁, hlabel⟩ := exists_of_run_bind hrun
  obtain ⟨inner, _, henter, hlowered⟩ := exists_of_run_bind hrun₁
  obtain ⟨rfl, hinner⟩ := inside_of_enter henter
  obtain ⟨part, hadds, hpart⟩ := h inner hinner st _ st₁ hl hlowered
  exact ⟨_, hadds.trans (extends_of_emitLabel hlabel).toAdds, not_closed_of_emitLabel hlabel,
    inner, part, hinner, rfl, hpart⟩

/-- The code of a switch goes to the section for its value, and runs the sections from there on. -/
theorem performs_switch (hI : Implements M S) {subject : Expr} (hs : Supported ctx [] subject)
    {n : Nat} {sections : List SwitchSection} {lowered : Surroundings → Lower Unit}
    {run : Nat → Nat → Env V → Outcome × Env V}
    (h : ∀ inner, Inside env inner (labelName "switch" n "end") none →
      Emits (lowered inner) fun _ _ ↦ SectionsAt M ctx inner.targets n 0 sections.length run) :
    Performs M ctx env (do
      dispatch ctx subject (switchCases n 0 sections)
      emitJump (defaultLabel n sections)
      inScope ctx do
        inside env (labelName "switch" n "end") none lowered
        emitLabel (labelName "switch" n "end")) fun m e ↦
      let r := S.eval ctx subject e
      match S.section? r.1 (ctx.typeOf subject.id) sections with
      | none => (.next, r.2)
      | some i => Meaning.leaveSwitch (run i m r.2) := by
  intro st u st' hl hrun
  obtain ⟨_, st₂, hrun₁, hrun₂⟩ := exists_of_run_bind hrun
  obtain ⟨value, st₁, hvalue, hdispatch⟩ := exists_of_run_bind hrun₁
  obtain ⟨_, st₃, hjump, hrun₃⟩ := exists_of_run_bind hrun₂
  obtain ⟨_, _, part₁, hvalue', hext₁, heff⟩ := run_value hI hs hl
  cases hvalue'.symm.trans hvalue
  have hl₁ : NoLocals st₁.scopes := hext₁.scopes ▸ hl
  simp only [isString_of_isValue hs.isValue, Bool.false_eq_true, if_false] at hdispatch
  obtain ⟨part₂, hadds₂, hcompare⟩ := emits_compareCases hI _ _ _ _ st₁ _ st₂ hl₁ hdispatch
  have hadds₃ := adds_of_emitJump hjump
  have hl₃ : NoLocals st₃.scopes := by
    rw [hadds₃.scopes, hadds₂.scopes]
    exact hl₁
  obtain ⟨_, hadds₄, hopen, inner, part₄, hinner, rfl, hsections⟩ :=
    emits_sections (P := fun targets ↦ SectionsAt M ctx targets n 0 sections.length run) h
      st₃ _ st' hl₃ hrun₃
  refine ⟨_, hext₁.toAdds.trans (hadds₂.trans (hadds₃.trans hadds₄)),
    fun _ ↦ ⟨?_, fun _ _ _ ↦ hopen⟩⟩
  intro code position hd hat hp m σ e hh
  have hrest : CodeAt code (position + part₁.length + part₂.length + 1)
      (part₄ ++ [Statement.label (labelName "switch" n "end")]) := hat.right.right.right
  have hend := hrest.right
  have hpast (υ : Store V) := Machine.Executes.label (M := M) _ υ code _ hd hend
  have hplaced := hinner.placed hp hend.labelAt nofun
  have hsections := hsections code _ hd hrest.left hplaced
  simp only [Nat.zero_add] at hsections
  obtain ⟨τ, hex, hτ, hread⟩ := heff σ e hh
  have hstart := hex code position hd hat.left
  -- the comparisons and the jump behind them go to the label of the section
  obtain ⟨q, hq, hfind⟩ := hcompare code _ hd hat.right.left (fun c hc ↦ by
    obtain ⟨j, hj, hlabel⟩ := mem_switchCases hc
    obtain ⟨k, hk, -⟩ := hsections j hj
    rw [Nat.zero_add] at hlabel
    exact ⟨k, hlabel ▸ hk⟩) τ
  rw [hread] at hfind
  have hgo (k : Nat) (hk : labelAt? code k = some
      (((S.section? (S.eval ctx subject e).1 (ctx.typeOf subject.id) sections).map
        (caseLabel n)).getD (labelName "switch" n "end"))) :
      M.Reaches code 0 (position, σ) (k, τ) := by
    rw [← label_section?] at hk
    cases hcase : (switchCases n 0 sections).find?
        (S.fits (S.eval ctx subject e).1 (ctx.typeOf subject.id) ·.1) with
    | some c =>
      rw [hcase] at hfind hk
      rw [labelAt?_inj hd hk hfind]
      exact hstart.andThen hq
    | none =>
      rw [hcase] at hfind hk
      rw [show q = _ from hfind] at hq
      have hjumpAt := hat.right.right.left
      exact (hstart.andThen hq).andThen (Machine.Branches.jump _ τ code _ k hd hjumpAt hk)
  simp only [List.length_append, List.length_singleton, ← Nat.add_assoc]
  cases hsection : S.section? (S.eval ctx subject e).1 (ctx.typeOf subject.id) sections with
  | none =>
    rw [hsection] at hgo
    exact .next hτ ((hgo _ hend.labelAt).andThen (hpast τ))
  | some i =>
    rw [hsection] at hgo
    obtain ⟨k, hk, hlands⟩ := hsections i (section?_lt hsection)
    refine Lands.after (hgo k hk) (Lands.leaveSwitch hinner (hlands 0 m τ _ hτ) ?_)
    intro p υ hp
    rw [hinner.endsAt_break hd hend.labelAt hp]
    exact hpast υ

end MethodCompiler.Lowering
