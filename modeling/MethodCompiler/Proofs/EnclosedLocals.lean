import MethodCompiler.Proofs.ScopeExits

/-!
# Locals stay in their scopes

Statements declare locals in the scope that they stand in, and leave it by `break` and `continue` to labels
of the constructs around. A loop is left to its own labels only. A switch can be left to those of a loop
around it as well. Each kind of step keeps the locals of scopes enclosed, so the code of a method does.
-/

namespace MethodCompiler

namespace Lowering

variable {k : Setting} {x : Spot} {held : List Nat} {near : List String} {far : List (String × Nat)}
  {defs own : List String} {depth : Nat} {st st' st₁ st₂ : State} {s : Statement} {u : Unit}

/-- The labels that control may go to in other ways than `break` and `continue`. -/
private def Spot.around (x : Spot) : List String := x.near ++ x.jumps

private theorem Spot.around_ahead {labels : List String} {l : String} (h : l ∈ (x.ahead labels).around) :
    l ∈ x.around ∨ l ∈ labels := by
  rcases List.mem_append.mp h with h | h
  · exact (List.mem_append.mp h).symm.imp_left (List.mem_append_left _)
  · exact .inl (List.mem_append_right _ h)

private theorem Spot.far_cleanup {closed : Bool} {e : String × Nat} (h : e ∈ (x.cleanup closed).far) :
    e ∈ x.far := by
  cases closed with
  | true => cases h
  | false => exact h

/-- What `break` and `continue` go to in a construct, is near outside of it or far as well. -/
private theorem Spot.far_inside {breakLabel : String} {continueLabel : Option String}
    (hbreak : breakLabel ∈ x.near) (hcontinue : ∀ l ∈ continueLabel, l ∈ x.near) :
    ∀ e ∈ (x.inside breakLabel continueLabel).far, e ∈ x.far ∨ e.1 ∈ x.around := by
  cases continueLabel with
  | none => exact List.forall_mem_cons.mpr ⟨.inr (List.mem_append_left _ hbreak), fun _ ↦ .inl⟩
  | some l =>
    exact List.forall_mem_cons.mpr ⟨.inr (List.mem_append_left _ hbreak),
      List.forall_mem_singleton.mpr (.inr (List.mem_append_left _ (hcontinue l rfl)))⟩

/-- The scopes of the initial value are closed before the local has its name. -/
private theorem closed_declareLocal {name : String} {ty : Ty} {init : Nat → Recorded Unit}
    (hinit : (init st.nextRegister).run { st with nextRegister := st.nextRegister + 1 } = .ok () st₁)
    (hbind : bindRegister name st.nextRegister ty st₁ = .ok () st₂) (f : Operand → Recorded Unit) :
    (declareLocal name ty init >>= f).closed st =
      (init st.nextRegister).closed { st with nextRegister := st.nextRegister + 1 } ++
        (f (.register st.nextRegister ty)).closed st₂ := by
  have hnew : (liftM newRegisterNumber : Recorded Nat).run st =
      .ok st.nextRegister { st with nextRegister := st.nextRegister + 1 } := rfl
  have hname : (liftM (bindRegister name st.nextRegister ty) : Recorded Unit).run st₁ = .ok () st₂ := hbind
  have hlocal : (declareLocal name ty init).run st = .ok (.register st.nextRegister ty) st₂ :=
    (run_bind hnew).trans ((run_bind hinit).trans (run_bind hname))
  rw [Recorded.closed_bind hlocal, declareLocal, Recorded.closed_bind hnew, Recorded.closed_bind hinit,
    Recorded.closed_bind hname]
  exact congrArg (· ++ _) (List.append_nil _)

private theorem closed_inside {env : Surroundings} {breakLabel : String} {continueLabel : Option String}
    (hst : st.Ready held depth) (act : Surroundings → Recorded Unit) :
    (inside env breakLabel continueLabel act).closed st =
      (act { env with targets := ⟨breakLabel, continueLabel, depth⟩ :: env.targets }).closed st := by
  rw [← hst.depth]
  rfl

private theorem Exit.calm {caught : Bool} (h : Exit caught s) :
    s.op.isBranch = false ∧ s.op ≠ .switch ∧ s.bare.Owned (fun _ ↦ True) st.nextRegister := by
  have howned : s.bare.Owned (fun _ ↦ True) st.nextRegister := by
    cases h with
    | ret | rethrow => exact Statement.owned_of_operands (by rintro ⟨⟩) (List.forall_mem_nil _)
    | trap =>
      exact Statement.owned_of_operands (by rintro ⟨⟩)
        (List.forall_mem_singleton.mpr (Operand.owned_of_register? rfl))
  cases h with
  | ret | trap | rethrow => exact ⟨rfl, by rintro ⟨⟩, howned⟩

/-! ### Protected code -/

/-- Locals are kept enclosed. -/
private def Enclosing (near : List String) (far : List (String × Nat)) (own : List String) (st st' : State)
    (spans : List ScopeSpan) : Prop := ∃ part added, Enclosed near far own st st' spans part added

/-- The parts of a protected construct may go to its end. -/
private theorem brings_enclosing {c f : Option String} {e : String} {body handler cleanup : Recorded Unit}
    (hbody : Brings held depth (Enclosing (e :: near) far []) body)
    (hhandler : Brings held depth (Enclosing (e :: near) far []) handler)
    (hcleanup : Brings held depth (Enclosing (e :: near) far []) cleanup) :
    Brings held depth (Enclosing near far [e]) (protectedSteps c f e body handler cleanup) := by
  have hchains {near near' own : List String} (hnear : ∀ l ∈ near', l ∈ near ∨ l ∈ own) :
      Chains held depth (Enclosing near' far []) (Enclosing near far own) (Enclosing near far own) := by
    rintro _ _ _ _ _ - - ⟨part₁, added₁, h₁⟩ ⟨part₂, added₂, h₂⟩
    exact ⟨_, _, h₁.trans h₂ hnear fun _ ↦ .inl⟩
  have hplain {s : Statement} (hbranch : s.op.isBranch = false) (hswitch : s.op ≠ .switch)
      (howned : ∀ n, s.bare.Owned (fun _ ↦ True) n) :
      Brings held depth (Enclosing (e :: near) far []) (Recorded.lift (emitStatement s)) :=
    .statement fun hrun ↦ ⟨_, _, .plain hrun (howned _) hbranch hswitch⟩
  have hfree (l : Option String) : (optionalLabel l).register? = none := by
    cases l <;> rfl
  refine .protectedSteps (fun st ↦ ⟨_, _, .refl st⟩) (hchains fun _ ↦ .inl) (hchains fun l hl ↦ ?_)
    (hplain rfl (by rintro ⟨⟩) fun n ↦ Statement.owned_of_operands (by rintro ⟨⟩) ?_)
    (fun hrun ↦ ⟨_, _, .jump List.mem_cons_self hrun⟩)
    (fun l ↦ .statement fun hrun ↦ ⟨_, _, (Enclosed.label hrun).forget⟩)
    (hplain rfl (by rintro ⟨⟩) fun n ↦ Statement.owned_of_operands (by rintro ⟨⟩) (List.forall_mem_nil _))
    (.statement fun hrun ↦ ⟨_, _, .label hrun⟩) hbody hhandler hcleanup
  · exact (List.mem_cons.mp hl).symm.imp_right fun h ↦ List.mem_singleton.mpr h
  · exact List.forall_mem_cons.mpr ⟨Operand.owned_of_register? (hfree c), List.forall_mem_cons.mpr
      ⟨Operand.owned_of_register? (hfree f), List.forall_mem_singleton.mpr (Operand.owned_of_register? rfl)⟩⟩

/-! ### Statements -/

/-- The code of a statement keeps the locals of scopes enclosed. -/
private theorem Steps.enclosed {act : Lower Unit} {act' : Recorded Unit} (h : Steps k x held defs act act')
    (hfree : k.labelFree = true) (hst : st.Ready held x.depth) (hrun : act'.run st = .ok u st') :
    ∃ part added, Enclosed x.around x.far defs st st' (act'.closed st) part added := by
  induction h generalizing st st' u with
  | pure =>
    cases hrun
    exact ⟨_, _, .refl st⟩
  | fail e => cases hrun
  | seq ha _ iha ihb =>
    obtain ⟨_, st₁, hrun₁, hrun₂⟩ := exists_of_run_bind hrun
    obtain ⟨part₁, added₁, h₁⟩ := iha hst hrun₁
    obtain ⟨part₂, added₂, h₂⟩ := ihb (ha.ready hfree hst hrun₁) hrun₂
    rw [Recorded.closed_bind hrun₁]
    exact ⟨_, _, h₁.trans h₂ (fun _ ↦ Spot.around_ahead) fun _ ↦ .inl⟩
  | built hbuilt =>
    obtain ⟨-, part, hran⟩ := (hbuilt (fun _ ↦ True) st.nextRegister fun r hr ↦
      ⟨trivial, hst.held r hr⟩).ran_of_ready hst hrun
    exact ⟨_, _, .ofRan hran fun _ ↦ List.mem_append_left _⟩
  | @throw x _ _ _ hbuilt =>
    obtain ⟨v, st₁, hvalue, hthrow⟩ := exists_of_run_bind hrun
    obtain ⟨⟨_, hv⟩, part, hran⟩ := (hbuilt (fun _ ↦ True) st.nextRegister).ran_of_ready hst hvalue
    have howned : (Statement.of .throw [v]).bare.Owned (fun _ ↦ True) st₁.nextRegister :=
      Statement.owned_of_operands (by rintro ⟨⟩) (List.forall_mem_singleton.mpr hv.owned)
    have hvalue : Enclosed x.around x.far [] st st₁ [] part [] := .ofRan hran fun _ ↦ List.mem_append_left _
    exact ⟨_, _, hvalue.trans (.plain hthrow howned rfl (by rintro ⟨⟩)) (fun _ ↦ .inl) fun _ ↦ .inl⟩
  | exit hs =>
    obtain ⟨hbranch, hswitch, howned⟩ := hs.calm
    exact ⟨_, _, .plain hrun howned hbranch hswitch⟩
  | jump hl => exact ⟨_, _, .jump (List.mem_append_right _ hl) hrun⟩
  | jumpOut hl =>
    obtain ⟨part, h⟩ := Enclosed.jumpOut hl (fun r hr ↦ (hst.inScope hr).1) hrun
    exact ⟨part, _, h⟩
  | ifReachable _ ih =>
    rcases ifReachable_ok hrun with hrun | ⟨-, rfl⟩
    · exact ih hst hrun
    · exact ⟨_, _, .refl _⟩
  | annotate comment =>
    obtain ⟨code, rfl, hcode⟩ := annotate_ok hrun
    exact ⟨_, _, .quiet hcode rfl (Nat.le_refl _) rfl rfl⟩
  | register _ ih =>
    obtain ⟨_, _, hnew, hrun⟩ := exists_of_run_bind hrun
    cases hnew
    obtain ⟨part, added, h⟩ := ih _ hst.taken hrun
    exact ⟨part, added, h.untaken⟩
  | declare hdepth hinit _ ihinit ihf =>
    obtain ⟨st₁, st₂, hrun₁, hbind, hrun₂⟩ := exists_of_declareLocal hrun
    have hst₁ := (hinit _).ready hfree hst.taken hrun₁
    have hscopes := hst₁.scopes_ne_nil hdepth
    obtain ⟨part₁, added₁, h₁⟩ := ihinit _ hst.taken hrun₁
    obtain ⟨part₂, added₂, h₂⟩ := ihf _ (hst₁.named List.mem_cons_self hscopes hbind) hrun₂
    rw [closed_declareLocal hrun₁ hbind]
    exact ⟨_, _, (Enclosed.declared hscopes h₁ hbind).trans h₂ (fun _ ↦ .inl) fun _ ↦ .inl⟩
  | constant hdepth _ => exact ⟨_, _, .bound (hst.scopes_ne_nil hdepth) hrun⟩
  | @scope x _ _ _ _ _ ih =>
    obtain ⟨st₁, hrun₁, hpop⟩ := exists_of_recordScope hrun
    obtain ⟨part, added, h⟩ := ih hst.opened hrun₁
    obtain ⟨part, h⟩ := h.recorded (fun e he ↦ hst.depth ▸ x.far_le e he) hrun₁ hpop
    exact ⟨part, _, h⟩
  | construct kind parts _ _ ih =>
    obtain ⟨_, _, hnew, hrun⟩ := exists_of_run_bind hrun
    cases hnew
    obtain ⟨part, added, h⟩ := ih _ (hst.numbered _) hrun
    exact ⟨part, added, h.forget.unnumbered⟩
  | @loop _ _ labels _ _ _ ih =>
    obtain ⟨part, added, h⟩ := ih hst hrun
    exact ⟨part, added, h.closed (fun l hl ↦ List.append_nil labels ▸ hl) (List.forall_mem_nil _)⟩
  | inside hbreak hcontinue _ ih =>
    obtain ⟨part, added, h⟩ := ih hst (run_inside hst hrun)
    rw [closed_inside hst]
    exact ⟨part, added, h.mono (fun _ ↦ id) (Spot.far_inside hbreak hcontinue)⟩
  | @protect x held _ _ body' cleanup' _ handler' handled cleaned clauses _ _ _ hbody hhandler _ hcleanup
      ihb ihh ihc =>
    obtain ⟨n, _, hnew, hrun⟩ := exists_of_run_bind hrun
    cases hnew
    let near := labelName "try" st.nextConstruct "end" :: x.around
    have hbody : Brings held x.depth (Enclosing near x.far []) body' := hbody.brings hfree fun hst hrun ↦ by
      obtain ⟨part, added, h⟩ := ihb hst hrun
      exact ⟨part, added, h.mono (List.forall_mem_nil _) fun _ ↦ .inl⟩
    have hhandler : Brings held x.depth (Enclosing near x.far []) (handler' st.nextConstruct) :=
      (hhandler _).brings hfree fun hst hrun ↦ by
        obtain ⟨part, added, h⟩ := ihh _ hst hrun
        exact ⟨part, added, h.forget.mono (List.forall_mem_singleton.mpr List.mem_cons_self) fun _ ↦ .inl⟩
    have hcleanup : Brings held x.depth (Enclosing near x.far []) cleanup' :=
      hcleanup.brings hfree fun hst hrun ↦ by
        obtain ⟨part, added, h⟩ := ihc hst hrun
        exact ⟨part, added, h.mono (List.forall_mem_nil _) fun _ he ↦ .inl (Spot.far_cleanup he)⟩
    obtain ⟨-, part, added, h⟩ := (brings_enclosing hbody hhandler hcleanup).run (hst.numbered _) hrun
    exact ⟨part, added, h.forget.unnumbered⟩

/-- The code of a method gives names to the registers of locals of its scopes, and each of these stays in
its scope. -/
theorem names_safe_lowerMethodBody {ctx : Context} (hplace : ctx.inPlace = false) {functions : FunctionTable}
    (hrun : (lowerMethodBody ctx : Recorded Unit).run { functions } = .ok u st) :
    (∀ r, st.Names r ↔
        r ∈ ((lowerMethodBody ctx : Recorded Unit).closed { functions }).flatMap (·.registers)) ∧
      ∀ span ∈ (lowerMethodBody ctx : Recorded Unit).closed { functions },
        span.Safe st.constants st.bare := by
  have hsteps := Context.steps hplace .loose fun hk ↦ absurd rfl hk
  obtain ⟨part, added, h⟩ := hsteps.enclosed rfl (.start functions) hrun
  obtain rfl := h.unscoped rfl
  have hnone (r : Nat) : ¬State.Names { functions } r := by
    rintro ⟨_, ⟨⟩⟩
  refine ⟨fun r ↦ (h.names r).trans ?_, h.safe st.constants List.prefix_rfl⟩
  rw [or_iff_right (hnone r)]
  exact or_iff_right List.not_mem_nil

end Lowering

end MethodCompiler
