import MethodCompiler.Proofs.TwinRuns

/-!
# Registers of intermediate values

A statement of the tree writes registers that it takes itself and registers of locals in scope, and no
others. So a register that holds an intermediate value, with no local's name, is not written again once
the value was thrown: what comes later takes registers of its own. `Spared` says this of a run of statement
code, and each kind of step keeps it.
-/

namespace MethodCompiler

namespace Lowering

/-- The registers that a step may write: those that are held for it, those of locals in scope, and those
that are not in use yet. -/
def State.Own (st : State) (held : List Nat) (r : Nat) : Prop :=
  r ∈ held ∨ st.InScope r ∨ st.nextRegister ≤ r

/-- What a step of emitting code has done. Its statements write only registers that it may write. They
throw registers of locals, and registers that the step has taken and that no later one of them writes. -/
structure Spared (held : List Nat) (st st' : State) : Prop where
  registers : st.nextRegister ≤ st'.nextRegister
  names : ∀ r, st.Names r → st'.Names r
  scope : ∀ r, st'.InScope r → st.Own held r
  code : ∃ out, st'.bare = st.bare ++ out ∧ (∀ s ∈ out, ∀ r ∈ s.writes, st.Own held r) ∧
    (∀ s ∈ out, ∀ r, s.thrown? = some r →
      st'.Names r ∨ st.nextRegister ≤ r ∧ r < st'.nextRegister) ∧
    out.Pairwise fun s s' ↦ ∀ r, s.thrown? = some r → st'.Names r ∨ r ∉ s'.writes

variable {k : Setting} {x : Spot} {held held' : List Nat} {defs : List String} {depth r : Nat}
  {st st₁ st₂ st' : State} {out : List Statement} {s : Statement} {u : Unit}

namespace Spared

/-- A step that throws nothing. -/
private theorem of_ne_throw (hregisters : st.nextRegister ≤ st'.nextRegister)
    (hnames : ∀ r, st.Names r → st'.Names r) (hscope : ∀ r, st'.InScope r → st.Own held r)
    (hcode : st'.bare = st.bare ++ out)
    (hout : ∀ s ∈ out, s.op ≠ .throw ∧ ∀ r ∈ s.writes, st.Own held r) : Spared held st st' := by
  have hthrown : ∀ s ∈ out, s.thrown? = none := fun s hs ↦ Statement.thrown?_of_ne (hout s hs).1
  refine ⟨hregisters, hnames, hscope, out, hcode, fun s hs ↦ (hout s hs).2, ?_, ?_⟩
  · intro s hs r hr
    rw [hthrown s hs] at hr
    cases hr
  · refine List.Pairwise.imp_of_mem ?_ (List.pairwise_of_forall (R := fun _ _ ↦ True) fun _ _ ↦ trivial)
    intro s s' hs _ _ r hr
    rw [hthrown s hs] at hr
    cases hr

/-- A step that only emits code and throws nothing. -/
private theorem emitted {code : Array Statement} (hcode : code.toList.map Statement.bare = st.bare ++ out)
    (hout : ∀ s ∈ out, s.op ≠ .throw ∧ ∀ r ∈ s.writes, st.Own held r) : Spared held st { st with code } :=
  .of_ne_throw (Nat.le_refl _) (fun _ ↦ id) (fun _ hr ↦ .inr (.inl hr)) hcode hout

private theorem refl (st : State) : Spared held st st :=
  .emitted (List.append_nil _).symm (List.forall_mem_nil _)

/-- A statement without a destination. -/
private theorem statement (hrun : emitStatement s st = .ok u st') (hop : s.op ≠ .throw)
    (hout : s.op.output = .none) : Spared held st st' := by
  cases hrun
  refine .emitted (bare_push st s) (List.forall_mem_singleton.mpr ⟨hop, fun r hr ↦ ?_⟩)
  rw [Statement.writes_eq_nil (s := s.bare) hout] at hr
  cases hr

/-- The same step, seen from an earlier state. -/
private theorem before (h : Spared held' st₁ st') (hbare : st₁.bare = st.bare)
    (hregisters : st.nextRegister ≤ st₁.nextRegister) (hnames : ∀ r, st.Names r → st₁.Names r)
    (hown : ∀ r, st₁.Own held' r → st.Own held r) : Spared held st st' := by
  obtain ⟨out, hcode, hwrites, hthrown, hpairs⟩ := h.code
  refine ⟨Nat.le_trans hregisters h.registers, fun r hr ↦ h.names r (hnames r hr),
    fun r hr ↦ hown r (h.scope r hr), out, by rw [hcode, hbare],
    fun s hs r hr ↦ hown r (hwrites s hs r hr), ?_, hpairs⟩
  intro s hs r hr
  exact (hthrown s hs r hr).imp_right fun hr ↦ ⟨Nat.le_trans hregisters hr.1, hr.2⟩

/-- One step after another. What the first has thrown, the second does not write: it is neither held, nor
a local's, nor taken later. -/
private theorem trans (hheld : ∀ r ∈ held, r < st.nextRegister) (hlocals : ∀ r, st₁.InScope r → st₁.Names r)
    (h₁ : Spared held st st₁) (h₂ : Spared held st₁ st₂) : Spared held st st₂ := by
  obtain ⟨out₁, hcode₁, hwrites₁, hthrown₁, hpairs₁⟩ := h₁.code
  obtain ⟨out₂, hcode₂, hwrites₂, hthrown₂, hpairs₂⟩ := h₂.code
  have hown : ∀ r, st₁.Own held r → st.Own held r := by
    rintro r (hr | hr | hr)
    · exact .inl hr
    · exact h₁.scope r hr
    · exact .inr (.inr (Nat.le_trans h₁.registers hr))
  refine ⟨Nat.le_trans h₁.registers h₂.registers, fun r hr ↦ h₂.names r (h₁.names r hr),
    fun r hr ↦ hown r (h₂.scope r hr), out₁ ++ out₂, by rw [hcode₂, hcode₁, List.append_assoc],
    ?_, ?_, ?_⟩
  · exact List.forall_mem_append.mpr ⟨hwrites₁, fun s hs r hr ↦ hown r (hwrites₂ s hs r hr)⟩
  · refine List.forall_mem_append.mpr ⟨fun s hs r hr ↦ ?_, fun s hs r hr ↦ ?_⟩
    · exact (hthrown₁ s hs r hr).imp (h₂.names r)
        fun hr ↦ ⟨hr.1, Nat.lt_of_lt_of_le hr.2 h₂.registers⟩
    · exact (hthrown₂ s hs r hr).imp_right fun hr ↦ ⟨Nat.le_trans h₁.registers hr.1, hr.2⟩
  · refine List.pairwise_append.mpr ⟨hpairs₁.imp ?_, hpairs₂, ?_⟩
    · intro s s' h r hr
      exact (h r hr).imp_left (h₂.names r)
    · intro s hs s' hs' r hr
      rcases hthrown₁ s hs r hr with hnamed | ⟨hlo, hhi⟩
      · exact .inl (h₂.names r hnamed)
      · refine Decidable.or_iff_not_imp_right.mpr fun hwritten ↦ ?_
        rcases hwrites₂ s' hs' r (Decidable.not_not.mp hwritten) with hr | hr | hr
        · exact absurd (hheld r hr) (Nat.not_lt.mpr hlo)
        · exact h₂.names r (hlocals r hr)
        · exact absurd hhi (Nat.not_lt.mpr hr)

/-- Expression code that may write what the step may write. -/
private theorem ofRan {own : Nat → Prop} {near : List String} (h : Ran k own near defs st st' out)
    (hown : ∀ r, own r → st.Own held r) : Spared held st st' := by
  refine .of_ne_throw h.registers (fun r hr ↦ ?_) (fun r hr ↦ ?_) h.code fun s hs ↦ ?_
  · rw [State.Names, h.names]
    exact hr
  · rw [State.InScope, h.scopes] at hr
    exact .inr (.inl hr)
  · obtain ⟨hcalm, howned⟩ := h.statements s hs
    refine ⟨fun hop ↦ ?_, fun r hr ↦ hown r (howned.writes r hr)⟩
    rw [hop] at hcalm
    cases hcalm

/-- A value is thrown from the register of a local, or from one that was taken to compute it. -/
private theorem thrown {near : List String} {v : Operand} (hlocals : ∀ r, st.InScope r → st.Names r)
    (hran : Ran k (fun r ↦ st.InScope r ∨ st.nextRegister ≤ r) near defs st st₁ out)
    (hv : v.Owned (fun r ↦ st.InScope r ∨ st.nextRegister ≤ r) st₁.nextRegister)
    (hrun : emit .throw [v] st₁ = .ok u st') : Spared held st st' := by
  have hspared : Spared held st st₁ := .ofRan hran fun _ ↦ .inr
  obtain ⟨out, hcode, hwrites, hthrown, hpairs⟩ := hspared.code
  have hwritten : (Statement.of .throw [v]).writes = [] := Statement.writes_eq_nil rfl
  cases hrun
  refine ⟨hspared.registers, hspared.names, hspared.scope, out ++ [Statement.of .throw [v]], ?_, ?_, ?_, ?_⟩
  · rw [← List.append_assoc, ← hcode]
    exact bare_push _ _
  · refine List.forall_mem_append.mpr ⟨hwrites, List.forall_mem_singleton.mpr ?_⟩
    rw [hwritten]
    exact List.forall_mem_nil _
  · refine List.forall_mem_append.mpr ⟨hthrown, List.forall_mem_singleton.mpr fun r hr ↦ ?_⟩
    obtain ⟨hown, hlt⟩ := hv r hr
    exact hown.imp (fun hr ↦ hspared.names r (hlocals r hr)) fun hle ↦ ⟨hle, hlt⟩
  · refine List.pairwise_append.mpr ⟨hpairs, List.pairwise_singleton _ _, ?_⟩
    intro s _ s' hs' r _
    rw [List.mem_singleton.mp hs', hwritten]
    exact .inr List.not_mem_nil

/-- The registers that are cleared are those of a scope. -/
private theorem clears {scope : Scope} (h : s ∈ clearCode scope) :
    s.op ≠ .throw ∧ ∀ r ∈ s.writes, r ∈ scope.registers := by
  obtain ⟨r, hr, ty, rfl⟩ := exists_of_mem_clearCode h
  exact ⟨by rintro ⟨⟩, List.forall_mem_cons.mpr ⟨hr, List.forall_mem_singleton.mpr hr⟩⟩

private theorem jumpOut {ctx : Context} {l : String} {d : Nat}
    (hrun : Lowering.jumpOut ctx l d st = .ok u st') :
    Spared held st st' := by
  obtain ⟨code, rfl, hcode⟩ := jumpOut_ok hrun
  refine .emitted hcode (List.forall_mem_append.mpr ⟨fun s hs ↦ ?_, List.forall_mem_singleton.mpr ?_⟩)
  · refine (clears hs).imp_right fun hwrites r hr ↦ .inr (.inl ?_)
    obtain ⟨name, ty, hmem⟩ := Scope.mem_registers.mp (hwrites r hr)
    obtain ⟨scope, hscope, hmem⟩ := List.mem_flatten.mp hmem
    exact ⟨scope, List.mem_of_mem_take hscope, name, ty, hmem⟩
  · refine ⟨by rintro ⟨⟩, ?_⟩
    rw [Statement.writes_eq_nil rfl]
    exact List.forall_mem_nil _

/-- A name is added to the scope, for a constant or for a register that is held. -/
private theorem bound {name : String} {b : Binding} (hscopes : st.scopes ≠ [])
    (hb : ∀ r ty, b = .register r ty → r ∈ held) (hrun : bindName name b st = .ok u st') :
    Spared held st st' := by
  obtain rfl := bindName_ok hscopes hrun
  refine .of_ne_throw (Nat.le_refl _) (fun _ ↦ id) (fun r hr ↦ ?_) (List.append_nil _).symm
    (List.forall_mem_nil _)
  obtain ⟨scope, hscope, name', ty, hmem⟩ := hr
  rcases mem_of_extendInnermost hscope hmem with hmem | ⟨scope', hscope', hmem⟩
  · exact .inl (hb r ty (Prod.mk.inj (List.mem_singleton.mp hmem)).2.symm)
  · exact .inr (.inl ⟨scope', hscope', name', ty, hmem⟩)

/-- A register that is held becomes that of a local. -/
private theorem named {name : String} {ty : Ty} (hscopes : st.scopes ≠ []) (hr : r ∈ held)
    (hrun : bindRegister name r ty st = .ok u st') : Spared held st st' := by
  obtain ⟨_, st₁, hname, hbind⟩ := exists_of_run_bind hrun
  cases hname
  have hbound : Spared held { st with registerNames := st.registerNames ++ [(r, name)] } st' :=
    .bound hscopes (fun _ _ hb ↦ (Binding.register.inj hb).1 ▸ hr) hbind
  refine hbound.before rfl (Nat.le_refl _) ?_ fun _ ↦ id
  rintro x ⟨name', hmem⟩
  exact ⟨name', List.mem_append_left _ hmem⟩

/-- The registers of the scope that is closed may be written, as it was open before. -/
private theorem closed {ctx : Context} {scope : Scope} {outer : List Scope}
    (hscopes : st.scopes = scope :: outer)
    (hpop : popScope ctx st = .ok u st') : Spared held st st' := by
  obtain ⟨code, clears, rfl, hcode, hclears⟩ := popScope_ok hscopes hpop
  refine .of_ne_throw (Nat.le_refl _) (fun _ ↦ id) (fun r hr ↦ ?_) hcode fun s hs ↦ ?_
  · obtain ⟨scope', hscope', hmem⟩ := hr
    exact .inr (.inl ⟨scope', hscopes ▸ List.mem_cons_of_mem _ hscope', hmem⟩)
  · have hmem : s ∈ clearCode scope := by
      rcases hclears with ⟨-, rfl⟩ | rfl
      · cases hs
      · exact hs
    refine (Spared.clears hmem).imp_right fun hwrites r hr ↦ .inr (.inl ?_)
    obtain ⟨name, ty, hentry⟩ := Scope.mem_registers.mp (hwrites r hr)
    exact ⟨scope, hscopes ▸ List.mem_cons_self, name, ty, hentry⟩

/-- A step in a scope of its own. -/
private theorem ofScope {ctx : Context} (hst : st.Ready held depth)
    (h : Spared held { st with scopes := [] :: st.scopes } st₁) (hready : st₁.Ready held (depth + 1))
    (hpop : popScope ctx st₁ = .ok u st') : Spared held st st' := by
  obtain ⟨scope, outer, hscopes⟩ := List.exists_cons_of_ne_nil (hready.scopes_ne_nil (Nat.succ_pos _))
  refine (h.trans hst.opened.held (fun r hr ↦ (hready.inScope hr).2) (.closed hscopes hpop)).before rfl
    (Nat.le_refl _)
    (fun _ ↦ id) ?_
  rintro r (hr | ⟨scope, hscope, name, ty, hmem⟩ | hr)
  · exact .inl hr
  · rcases List.mem_cons.mp hscope with rfl | hscope
    · cases hmem
    · exact .inr (.inl ⟨scope, hscope, name, ty, hmem⟩)
  · exact .inr (.inr hr)

/-- A step whose register was not in use before. -/
private theorem untaken
    (h : Spared (st.nextRegister :: held) { st with nextRegister := st.nextRegister + 1 } st') :
    Spared held st st' := by
  refine h.before rfl (Nat.le_succ _) (fun _ ↦ id) ?_
  rintro r (hr | hr | hr)
  · rcases List.mem_cons.mp hr with rfl | hr
    · exact .inr (.inr (Nat.le_refl _))
    · exact .inl hr
  · exact .inr (.inl hr)
  · exact .inr (.inr (Nat.le_of_succ_le hr))

end Spared

/-! ### Protected code -/

/-- Thrown values are left alone. -/
private def Sparing (held : List Nat) (st st' : State) (_ : List ScopeSpan) : Prop := Spared held st st'

private theorem brings_protectedSteps {c f : Option String} {e : String}
    {body handler cleanup : Recorded Unit} (hbody : Brings held depth (Sparing held) body)
    (hhandler : Brings held depth (Sparing held) handler)
    (hcleanup : Brings held depth (Sparing held) cleanup) :
    Brings held depth (Sparing held) (protectedSteps c f e body handler cleanup) := by
  have hchains : Chains held depth (Sparing held) (Sparing held) (Sparing held) :=
    fun hst hst₁ h₁ h₂ ↦ Spared.trans hst.held (fun r hr ↦ (hst₁.inScope hr).2) h₁ h₂
  have hstatement {s : Statement} (hop : s.op ≠ .throw) (hout : s.op.output = .none) {st st' : State}
      {u : Unit} (hrun : emitStatement s st = .ok u st') : Sparing held st st' [] :=
    .statement hrun hop hout
  have hlabel (l : String) : Brings held depth (Sparing held) (Recorded.lift (emitLabel l)) :=
    .statement (hstatement (by rintro ⟨⟩) rfl)
  exact .protectedSteps .refl hchains hchains (.statement (hstatement (by rintro ⟨⟩) rfl))
    (hstatement (by rintro ⟨⟩) rfl) hlabel (.statement (hstatement (by rintro ⟨⟩) rfl)) (hlabel e) hbody
    hhandler hcleanup

/-! ### Statements -/

private theorem Exit.plain {caught : Bool} (h : Exit caught s) : s.op ≠ .throw ∧ s.op.output = .none := by
  cases h with
  | ret | trap | rethrow => exact ⟨by rintro ⟨⟩, rfl⟩

/-- The code of a statement leaves thrown values alone. -/
theorem Steps.spared {act : Lower Unit} {act' : Recorded Unit} (h : Steps k x held defs act act')
    (hfree : k.labelFree = true) (hst : st.Ready held x.depth) (hrun : act'.run st = .ok u st') :
    Spared held st st' := by
  induction h generalizing st st' u with
  | pure =>
    cases hrun
    exact .refl st
  | fail e => cases hrun
  | seq ha _ iha ihb =>
    obtain ⟨_, st₁, hrun₁, hrun₂⟩ := exists_of_run_bind hrun
    have hst₁ := ha.ready hfree hst hrun₁
    exact (iha hst hrun₁).trans hst.held (fun r hr ↦ (hst₁.inScope hr).2) (ihb hst₁ hrun₂)
  | @built _ held _ _ _ hbuilt =>
    obtain ⟨-, part, hran⟩ :=
      (hbuilt (st.Own held) st.nextRegister fun r hr ↦ ⟨.inl hr, hst.held r hr⟩).ran
        ⟨Nat.le_refl _, List.nil_prefix⟩
          (hst.provides (fun _ hr ↦ .inr (.inl hr)) fun _ hr ↦ .inr (.inr hr)) hrun
    exact .ofRan hran fun _ ↦ id
  | throw hbuilt =>
    obtain ⟨v, st₁, hvalue, hthrow⟩ := exists_of_run_bind hrun
    obtain ⟨⟨_, hv⟩, part, hran⟩ :=
      (hbuilt (fun r ↦ st.InScope r ∨ st.nextRegister ≤ r) st.nextRegister).ran
        ⟨Nat.le_refl _, List.nil_prefix⟩ (hst.provides (fun _ ↦ .inl) fun _ ↦ .inr) hvalue
    exact .thrown (fun r hr ↦ (hst.inScope hr).2) hran hv.owned hthrow
  | exit hs => exact .statement hrun hs.plain.1 hs.plain.2
  | jump _ => exact .statement hrun (by rintro ⟨⟩) rfl
  | jumpOut _ => exact .jumpOut hrun
  | ifReachable _ ih =>
    rcases ifReachable_ok hrun with hrun | ⟨-, rfl⟩
    · exact ih hst hrun
    · exact .refl _
  | annotate comment =>
    obtain ⟨code, rfl, hcode⟩ := annotate_ok hrun
    exact .emitted (hcode.trans (List.append_nil _).symm) (List.forall_mem_nil _)
  | register _ ih =>
    obtain ⟨_, _, hnew, hrun⟩ := exists_of_run_bind hrun
    cases hnew
    exact (ih _ hst.taken hrun).untaken
  | declare hdepth hinit _ ihinit ihf =>
    obtain ⟨st₁, st₂, hrun₁, hbind, hrun₂⟩ := exists_of_declareLocal hrun
    have hst₁ := (hinit _).ready hfree hst.taken hrun₁
    have hscopes := hst₁.scopes_ne_nil hdepth
    have hst₂ := hst₁.named List.mem_cons_self hscopes hbind
    exact (((ihinit _ hst.taken hrun₁).trans hst.taken.held (fun r hr ↦ (hst₁.inScope hr).2)
      (.named hscopes List.mem_cons_self hbind)).trans hst.taken.held (fun r hr ↦ (hst₂.inScope hr).2)
        (ihf _ hst₂ hrun₂)).untaken
  | constant hdepth _ => exact .bound (hst.scopes_ne_nil hdepth) (by rintro _ _ ⟨⟩) hrun
  | scope hact ih =>
    obtain ⟨st₁, hrun₁, hpop⟩ := exists_of_recordScope hrun
    exact .ofScope hst (ih hst.opened hrun₁) (hact.ready hfree hst.opened hrun₁) hpop
  | construct kind parts _ _ ih =>
    obtain ⟨_, _, hnew, hrun⟩ := exists_of_run_bind hrun
    cases hnew
    exact (ih _ (hst.numbered _) hrun).before rfl (Nat.le_refl _) (fun _ ↦ id) fun _ ↦ id
  | loop _ ih => exact ih hst hrun
  | inside _ _ _ ih => exact ih hst (run_inside hst hrun)
  | @protect x held _ _ body' cleanup' _ handler' handled cleaned clauses _ _ _ hbody hhandler _ hcleanup
      ihb ihh ihc =>
    obtain ⟨n, _, hnew, hrun⟩ := exists_of_run_bind hrun
    cases hnew
    have hbody : Brings held x.depth (Sparing held) body' := hbody.brings hfree ihb
    have hhandler : Brings held x.depth (Sparing held) (handler' st.nextConstruct) :=
      (hhandler _).brings hfree (ihh _)
    have hcleanup : Brings held x.depth (Sparing held) cleanup' := hcleanup.brings hfree ihc
    have hspared : Spared held _ st' :=
      ((brings_protectedSteps hbody hhandler hcleanup).run (hst.numbered _) hrun).2
    exact hspared.before rfl (Nat.le_refl _) (fun _ ↦ id) fun _ ↦ id

end Lowering

/-- In the code of a method no statement behind a throw writes what was thrown, unless that is the
register of a local. -/
theorem not_written_behind_throw {m : Method} {symbols : SymbolTable} {o : Options} {t : FunctionTable}
    {f : LoweredFunction} (h : (lowerMethod m symbols o t).1 = .ok f) :
    f.code.Pairwise fun s s' ↦ ∀ r, s.thrown? = some r →
      (∃ name, (r, name) ∈ f.registerNames) ∨ r ∉ s'.writes := by
  obtain ⟨st, rfl, hrun⟩ := exists_of_lowerMethod h
  let ctx : Lowering.Context := { method := m, symbols, comments := o.comments }
  have hasks : (ctx.setting .loose).Asks fun leaving ↦ ctx.method.body.isOrderly leaving true true :=
    fun hk ↦ absurd rfl hk
  have hsteps := Lowering.Context.steps rfl .loose hasks
  obtain ⟨out, hcode, -, -, hpairs⟩ := (hsteps.spared rfl (.start t) hrun).code
  have hout : st.code.toList.map Statement.bare = out := hcode
  rw [← hout] at hpairs
  exact List.pairwise_map.mp hpairs

end MethodCompiler
