import MethodCompiler.Proofs.StatementRuns

/-!
# Runs side by side

The two runs that a setting speaks of do the same. They give the same results or the same error, they
declare the same functions whatever functions are known, and statement by statement their code differs only
in what the setting allows: in the operands that load arrays and tables, and in comments. Where it allows no
difference, telling of scopes changes nothing in a run.
-/

namespace MethodCompiler

open Lowering

/-- Two statements are the same, but for operands that load arrays and tables, and for comments that only
one of the runs writes. -/
structure Statement.Like (k : Setting) (pool : List Value) (s s' : Statement) : Prop where
  op : s.op = s'.op
  operands : List.Forall₂ (Operand.Loads k.loading pool) s.operands s'.operands
  comment : k.comments = k.comments' → s.comment = s'.comment
  synthetic : s.synthetic = s'.synthetic

/-- A statement that loads nothing is the same in both runs. -/
private theorem Statement.Like.refl {k : Setting} {pool : List Value} {s : Statement}
    (h : ∀ a ∈ s.operands, a.isPooled = false) : s.Like k pool s :=
  ⟨rfl, List.forall₂_same.mpr fun a ha ↦ .same fun _ ↦ h a ha, fun _ ↦ rfl, rfl⟩

namespace Lowering

/-! ### States of two runs -/

/-- The states of two runs: their code differs as allowed, and the first has a pool only if it loads from
it. What functions are known does not count. -/
structure State.Like (k : Setting) (st st' : State) : Prop where
  code : List.Forall₂ (Statement.Like k st'.constants) st.code.toList st'.code.toList
  constants : st.constants = if k.loading = .mixed then [] else st'.constants
  rest : { st with code := #[], constants := [], functions := .empty } =
    { st' with code := #[], constants := [], functions := .empty }

/-- The states of two runs have come to results with `P`, or both to the same error. They have declared the
same functions, whatever functions were known. -/
inductive Answers (k : Setting) {α : Type} (P : Stock → α → α → Prop) (act act' : Lower α)
    (st st' : State) : Prop
  | ok {a a' : α} {st₁ st₁' : State} (calls : List (UInt32 × String)) : (∀ c ∈ calls, k.allowed c.1 c.2) →
      P st₁'.stock a a' → st₁.Like k st₁' →
      (∀ t, act { st with functions := t } = .ok a { st₁ with functions := t.declareImplicit calls }) →
      (∀ t, act' { st' with functions := t } = .ok a' { st₁' with functions := t.declareImplicit calls }) →
      Answers k P act act' st st'
  | error {st₁ st₁' : State} (e : Error) (calls : List (UInt32 × String)) :
      (∀ c ∈ calls, k.allowed c.1 c.2) → st₁.Like k st₁' →
      (∀ t, act { st with functions := t } = .error e { st₁ with functions := t.declareImplicit calls }) →
      (∀ t, act' { st' with functions := t } = .error e { st₁' with functions := t.declareImplicit calls }) →
      Answers k P act act' st st'

variable {α β : Type} {k : Setting} {P : Stock → α → α → Prop} {Q : Stock → β → β → Prop}
  {act act' act₁ act₁' : Lower α} {f f' : α → Lower β} {st st' st₁ st₁' : State} {s s' : Statement} {x : Spot}
  {held : List Nat} {defs : List String} {depth : Nat} {a b : Lower Unit} {a' b' : Recorded Unit}

namespace State.Like

/-- What does not belong to code, constants and functions is the same. -/
private theorem eq_of (h : st.Like k st') {γ : Type} (g : State → γ)
    (hg : ∀ st, g { st with code := #[], constants := [], functions := .empty } = g st) : g st = g st' := by
  rw [← hg st, h.rest, hg]

private theorem nextRegister (h : st.Like k st') : st.nextRegister = st'.nextRegister :=
  h.eq_of State.nextRegister fun _ ↦ rfl

private theorem nextConstruct (h : st.Like k st') : st.nextConstruct = st'.nextConstruct :=
  h.eq_of State.nextConstruct fun _ ↦ rfl

private theorem scopes (h : st.Like k st') : st.scopes = st'.scopes := h.eq_of State.scopes fun _ ↦ rfl

/-- A change that has nothing to do with code, constants and functions. -/
private theorem change (h : st.Like k st') (g : State → State)
    (hg : ∀ st, { g st with code := #[], constants := [], functions := .empty } =
      g { st with code := #[], constants := [], functions := .empty })
    (hcode : ∀ st, (g st).code = st.code) (hconstants : ∀ st, (g st).constants = st.constants) :
    (g st).Like k (g st') where
  code := by
    rw [hcode, hcode, hconstants]
    exact h.code
  constants := by
    rw [hconstants, hconstants]
    exact h.constants
  rest := by rw [hg, hg, h.rest]

/-- A register is taken in both runs. -/
private theorem taken (h : st.Like k st') : State.Like k { st with nextRegister := st.nextRegister + 1 }
    { st' with nextRegister := st'.nextRegister + 1 } :=
  h.change (fun st ↦ { st with nextRegister := st.nextRegister + 1 }) (fun _ ↦ rfl) (fun _ ↦ rfl) fun _ ↦ rfl

/-- A construct is numbered in both runs. -/
private theorem numbered (h : st.Like k st') : State.Like k { st with nextConstruct := st.nextConstruct + 1 }
    { st' with nextConstruct := st'.nextConstruct + 1 } :=
  h.change (fun st ↦ { st with nextConstruct := st.nextConstruct + 1 }) (fun _ ↦ rfl) (fun _ ↦ rfl)
    fun _ ↦ rfl

/-- Scopes are opened, closed and filled in both runs. -/
private theorem rescoped (h : st.Like k st') (g : List Scope → List Scope) :
    State.Like k { st with scopes := g st.scopes } { st' with scopes := g st'.scopes } :=
  h.change (fun st ↦ { st with scopes := g st.scopes }) (fun _ ↦ rfl) (fun _ ↦ rfl) fun _ ↦ rfl

/-- A statement is emitted in both runs. -/
private theorem push (h : st.Like k st') (hs : s.Like k st'.constants s') :
    State.Like k { st with code := st.code.push s } { st' with code := st'.code.push s' } where
  code := by
    rw [Array.toList_push, Array.toList_push]
    exact List.rel_append h.code (.cons hs .nil)
  constants := h.constants
  rest := h.rest

/-- States that differ in nothing are the same, but for the functions that are known. -/
private theorem eq (h : st.Like k st') (hmixed : k.loading ≠ .mixed) (hcomments : k.comments = k.comments')
    (t : FunctionTable) : { st with functions := t } = { st' with functions := t } := by
  have hstatement {s s' : Statement} {pool : List Value} (h : s.Like k pool s') : s = s' := by
    obtain ⟨hop, hoperands, hcomment, hsynthetic⟩ := h
    obtain ⟨op, operands, comment, synthetic⟩ := s
    have hsame : operands = s'.operands := by
      refine List.forall₂_eq_eq_eq ▸ hoperands.imp fun a a' ha ↦ ?_
      cases ha with
      | same => rfl
      | entry hk => exact absurd hk hmixed
    cases hop
    cases hsame
    cases hcomment hcomments
    cases hsynthetic
    rfl
  have hcode : st.code = st'.code := by
    refine Array.toList_inj.mp ?_
    exact List.forall₂_eq_eq_eq ▸ h.code.imp fun _ _ ↦ hstatement
  have hconstants : st.constants = st'.constants := h.constants.trans (if_neg hmixed)
  have hrest := congrArg (fun st₀ : State ↦
    { st₀ with code := st.code, constants := st.constants, functions := t }) h.rest
  have hrest' : { st with functions := t } =
      { st' with code := st.code, constants := st.constants, functions := t } := hrest
  rw [hrest', hcode, hconstants]

end State.Like

/-! ### Rules -/

private theorem run_bind_error {e : Error} (h : act st = .error e st₁) : (act >>= f) st = .error e st₁ := by
  simp only [bind, EStateM.bind, h]

namespace Answers

private theorem pure {a a' : α} (h : P st'.stock a a') (hst : st.Like k st') :
    Answers k P (Pure.pure a) (Pure.pure a') st st' :=
  .ok [] (List.forall_mem_nil _) h hst (fun _ ↦ rfl) fun _ ↦ rfl

private theorem done {a : α} (hst : st.Like k st') : Answers k Any (Pure.pure a) (Pure.pure a) st st' :=
  .pure ⟨rfl, trivial⟩ hst

private theorem fail (e : Error) (hst : st.Like k st') :
    Answers k P (throw e : Lower α) (throw e) st st' :=
  .error e [] (List.forall_mem_nil _) hst (fun _ ↦ rfl) fun _ ↦ rfl

/-- One step after another. -/
private theorem bind (h : Answers k P act act' st st')
    (hf : ∀ {a a' : α} {st₁ st₁' : State} {t : FunctionTable},
      act' st' = .ok a' { st₁' with functions := t } →
      P st₁'.stock a a' → st₁.Like k st₁' → Answers k Q (f a) (f' a') st₁ st₁') :
    Answers k Q (act >>= f) (act' >>= f') st st' := by
  cases h with
  | error e calls hcalls hlike hrun hrun' =>
    exact .error e calls hcalls hlike (fun t ↦ run_bind_error (hrun t)) fun t ↦ run_bind_error (hrun' t)
  | @ok a a' st₁ st₁' calls hcalls hP hlike hrun hrun' =>
    cases hf (hrun' st'.functions) hP hlike with
    | ok calls' hcalls' hQ hlike' hnext hnext' =>
      refine .ok (calls ++ calls') (List.forall_mem_append.mpr ⟨hcalls, hcalls'⟩) hQ hlike' (fun t ↦ ?_)
        fun t ↦ ?_
      · rw [run_bind (hrun t), hnext, FunctionTable.declareImplicit_append]
      · rw [run_bind (hrun' t), hnext', FunctionTable.declareImplicit_append]
    | error e calls' hcalls' hlike' hnext hnext' =>
      refine .error e (calls ++ calls') (List.forall_mem_append.mpr ⟨hcalls, hcalls'⟩) hlike' (fun t ↦ ?_)
        fun t ↦ ?_
      · rw [run_bind (hrun t), hnext, FunctionTable.declareImplicit_append]
      · rw [run_bind (hrun' t), hnext', FunctionTable.declareImplicit_append]

/-- Steps that come down to others do what those do. -/
private theorem of_eq (h : Answers k P act₁ act₁' st₁ st₁')
    (heq : ∀ t, act { st with functions := t } = act₁ { st₁ with functions := t })
    (heq' : ∀ t, act' { st' with functions := t } = act₁' { st₁' with functions := t }) :
    Answers k P act act' st st' := by
  cases h with
  | ok calls hcalls hP hlike hrun hrun' =>
    exact .ok calls hcalls hP hlike (fun t ↦ (heq t).trans (hrun t)) fun t ↦ (heq' t).trans (hrun' t)
  | error e calls hcalls hlike hrun hrun' =>
    exact .error e calls hcalls hlike (fun t ↦ (heq t).trans (hrun t)) fun t ↦ (heq' t).trans (hrun' t)

/-- A construct gets the same number in both runs. -/
private theorem construct {f f' : Nat → Lower α} (hst : st.Like k st')
    (h : Answers k P (f st'.nextConstruct) (f' st'.nextConstruct)
      { st with nextConstruct := st.nextConstruct + 1 } { st' with nextConstruct := st'.nextConstruct + 1 }) :
    Answers k P (newConstruct >>= f) (newConstruct >>= f') st st' := by
  refine h.of_eq (fun t ↦ ?_) fun t ↦ rfl
  rw [← hst.nextConstruct]
  rfl

/-- A statement is emitted in both runs. -/
private theorem statement (hst : st.Like k st') (hs : s.Like k st'.constants s') :
    Answers k Any (emitStatement s) (emitStatement s') st st' :=
  .ok [] (List.forall_mem_nil _) ⟨rfl, trivial⟩ (hst.push hs) (fun _ ↦ rfl) fun _ ↦ rfl

private theorem emit {op : Opcode} {as as' : List Operand} (hst : st.Like k st')
    (h : List.Forall₂ (Operand.Loads k.loading st'.constants) as as') :
    Answers k Any (Lowering.emit op as) (Lowering.emit op as') st st' :=
  .statement hst ⟨rfl, h, fun _ ↦ rfl, rfl⟩

end Answers

/-! ### Loading -/

/-- Two operands load the same array or table, if need be from a pool that has grown. -/
private structure Loaded (k : Setting) (v : Value) (pool : List Value) (w : Stock) (a a' : Operand) :
    Prop where
  kept : pool <+: w.constants
  loads : a.Loads k.loading w.constants a'
  sound : v.hasLabel = false → a'.Sound w.constants.length
  register : a'.register? = none

private theorem loadConstant_pooled {ctx : Context} {v : Value} {i : Nat} {constants : List Value}
    (hplace : ctx.inPlace = false) (h : addConstant v st = .ok i { st with constants }) :
    loadConstant ctx v st = .ok (.constant i) { st with constants } := by
  rw [loadConstant, hplace, if_neg (by decide), run_bind h]
  rfl

/-- An array or a table is loaded, from the pool or in place. -/
private theorem Answers.load {v : Value} (hv : v.isAggregate = true) (hst : st.Like k st') :
    Answers k (Loaded k v st'.constants) (loadConstant k.first v) (loadConstant k.second v) st st' := by
  obtain ⟨i, constants, hadd, hrun⟩ := exists_addConstant v st'
  obtain ⟨u, hu, hentry⟩ := hadd.entry
  have hcode : List.Forall₂ (Statement.Like k constants) st.code.toList st'.code.toList :=
    hst.code.imp fun _ _ h ↦ ⟨h.op, h.operands.imp fun _ _ ha ↦ ha.mono hadd.kept, h.comment, h.synthetic⟩
  have hsound : (Operand.constant i).Sound constants.length := (List.getElem?_eq_some_iff.mp hu).1
  cases hloading : k.loading with
  | inPlace =>
    have hfirst : k.first.inPlace = true := by rw [Setting.first, hloading, Loading.first]
    have hsecond : k.second.inPlace = true := by rw [Setting.second, hloading, Loading.second]
    rw [loadConstant_inPlace hfirst, loadConstant_inPlace hsecond]
    exact .pure ⟨List.prefix_rfl, .same fun _ ↦ rfl, id, rfl⟩ hst
  | pooled =>
    have hfirst : k.first.inPlace = false := by rw [Setting.first, hloading, Loading.first]
    have hsecond : k.second.inPlace = false := by rw [Setting.second, hloading, Loading.second]
    have hconstants : st.constants = st'.constants := by
      rw [hst.constants, hloading]
      rfl
    have hlike : State.Like k { st with constants } { st' with constants } := by
      refine ⟨hcode, ?_, hst.rest⟩
      rw [hloading]
      rfl
    have hloaded : Loaded k v st'.constants (State.stock { st' with constants }) (.constant i)
        (.constant i) := by
      refine ⟨hadd.kept, .same fun h ↦ ?_, fun _ ↦ hsound, rfl⟩
      rw [hloading] at h
      cases h
    exact .ok [] (List.forall_mem_nil _) hloaded hlike
      (fun _ ↦ loadConstant_pooled hfirst (hrun _ hconstants))
      fun _ ↦ loadConstant_pooled hsecond (hrun _ rfl)
  | mixed =>
    have hfirst : k.first.inPlace = true := by rw [Setting.first, hloading, Loading.first]
    have hsecond : k.second.inPlace = false := by rw [Setting.second, hloading, Loading.second]
    have hlike : State.Like k st { st' with constants } := by
      refine ⟨hcode, ?_, hst.rest⟩
      rw [hst.constants, hloading]
      rfl
    have hloaded : Loaded k v st'.constants (State.stock { st' with constants }) (.immediate v)
        (.constant i) :=
      ⟨hadd.kept, .entry hloading hv hu (hentry.imp_right (·.2)), fun _ ↦ hsound, rfl⟩
    rw [loadConstant_inPlace hfirst]
    exact .ok [] (List.forall_mem_nil _) hloaded hlike (fun _ ↦ rfl) fun _ ↦
      loadConstant_pooled hsecond (hrun _ rfl)

/-- A value can be overwritten in both runs or in neither. -/
private theorem Answers.clobbered {a a' : Operand} {w : Stock} {own : Nat → Prop} (ha : a.Fits k own w a')
    (later : List Expr) (hst : st.Like k st') :
    Answers k Any (Lowering.clobbered a later) (Lowering.clobbered a' later) st st' := by
  cases ha.loads with
  | entry => exact .done hst
  | same =>
    cases a with
    | register r ty =>
      have hnames : st.registerNames = st'.registerNames := hst.eq_of State.registerNames fun _ ↦ rfl
      have hrun (st : State) (t : FunctionTable) :
          Lowering.clobbered (.register r ty) later { st with functions := t } =
            .ok (st.registerNames.any (·.1 == r) && later.any (·.any Expr.isWrite))
              { st with functions := t } :=
        rfl
      exact .ok [] (List.forall_mem_nil _) ⟨by rw [hnames], trivial⟩ hst (hrun st) (hrun st')
    | _ => exact .done hst

/-- Expression code does the same in both runs. -/
private theorem Built.answers {own : Nat → Prop} {near : List String} {w : Stock}
    (h : Built k own near defs w P act act') (hw : w.Within st'.stock) (hprov : st'.Provides k own)
    (hst : st.Like k st') : Answers k P act act' st st' := by
  have hpool {w : Stock} {as as' : List Operand} {st' : State} (hw : w.Within st'.stock)
      (h : Operand.AllFit k own w as as') : List.Forall₂ (Operand.Loads k.loading st'.constants) as as' :=
    h.imp fun _ _ ha ↦ ha.loads.mono hw.constants
  induction h generalizing st st' with
  | pure hP => exact .pure (hP _ hw) hst
  | fail e => exact .fail e hst
  | bind hact _ ih ihf =>
    refine (ih hw hprov hst).bind fun hrun hP hst₁ ↦ ?_
    obtain ⟨-, part, hran⟩ := hact.ran hw hprov hrun
    exact ihf _ _ _ (hw.trans hran.within) hP (.refl _)
      ⟨(hran.provides hprov).bound, (hran.provides hprov).fresh⟩ hst₁
  | @construct _ _ w _ _ _ kind parts hparts _ ih =>
    have hnumbered : State.Provides { st' with nextConstruct := st'.nextConstruct + 1 } k own :=
      ⟨hprov.bound, hprov.fresh⟩
    have hw' : w.Within (State.stock { st' with nextConstruct := st'.nextConstruct + 1 }) := hw
    exact .construct hst (ih st'.nextConstruct hw' hnumbered hst.numbered)
  | register ty =>
    have hnew : Alike (fun w a ↦ a.Writable own w.registers)
        (State.stock { st' with nextRegister := st'.nextRegister + 1 })
        (Operand.register st'.nextRegister ty) (.register st'.nextRegister ty) :=
      ⟨rfl, hprov.fresh _ (Nat.le_refl _), Nat.lt_succ_self _⟩
    refine (Answers.pure hnew hst.taken).of_eq (fun t ↦ ?_) fun t ↦ rfl
    rw [← hst.nextRegister]
    rfl
  | @literal _ _ v hv hlabel =>
    cases Answers.load hv hst with
    | ok calls hcalls hload hlike hrun hrun' =>
      exact .ok calls hcalls
        ⟨hload.loads, fun _ ↦ hload.sound hlabel, Operand.owned_of_register? hload.register⟩
        hlike hrun hrun'
    | error e calls hcalls hlike hrun hrun' => exact .error e calls hcalls hlike hrun hrun'
  | @function _ _ index name hallowed =>
    exact .ok [(index, name)] (List.forall_mem_singleton.mpr hallowed) ⟨rfl, trivial⟩ hst (fun _ ↦ rfl)
      fun _ ↦ rfl
  | lookup name =>
    have hbound : Alike (Bound k own) st'.stock (binding? st'.scopes name) (binding? st'.scopes name) :=
      ⟨rfl, hprov.bound name⟩
    refine (Answers.pure hbound hst).of_eq (fun t ↦ ?_) fun t ↦ rfl
    rw [← hst.scopes]
    rfl
  | clobbered later ha => exact .clobbered ha later hst
  | straight _ _ has => exact .emit hst (hpool hw has)
  | @rebind _ _ dst _ _ hdst ha =>
    refine .emit hst (.cons (.same fun _ ↦ ?_) (.cons (ha.loads.mono hw.constants) .nil))
    cases dst with
    | register | input | field => rfl
    | _ => exact hdst.elim
  | branch _ has _ =>
    exact .emit hst (List.rel_append (hpool hw has) (.cons (.same fun _ ↦ rfl) .nil))
  | switch _ hv _ ha =>
    obtain ⟨key, value, entries, rfl, -⟩ := hv
    refine (Answers.load rfl hst).bind fun _ hload hst₁ ↦ .emit hst₁ (.cons ?_ (.cons hload.loads .nil))
    exact ha.loads.mono (hw.constants.trans hload.kept)
  | label l => exact .statement hst (.refl (List.forall_mem_singleton.mpr rfl))

/-! ### Comments and scopes -/

private theorem forall₂_modify {γ : Type} {R : γ → γ → Prop} {g g' : γ → γ}
    (hg : ∀ a b, R a b → R (g a) (g' b)) {l l' : List γ} (h : List.Forall₂ R l l') (i : Nat) :
    List.Forall₂ R (l.modify i g) (l'.modify i g') := by
  induction h generalizing i with
  | nil => cases i <;> exact .nil
  | cons hab hrest ih =>
    cases i with
    | zero => exact .cons (hg _ _ hab) hrest
    | succ i => exact .cons hab (ih i)

/-- A statement with a comment, if comments are wanted. -/
private def annotated (comments : Bool) (comment : String) (s : Statement) : Statement :=
  if comments then { s with comment := some comment } else s

private theorem annotate_eq (ctx : Context) (comment : String) (st : State) :
    annotate ctx comment st =
      .ok () { st with code := st.code.modify (st.code.size - 1) (annotated ctx.comments comment) } := by
  cases h : ctx.comments with
  | true =>
    rw [annotate, h, if_pos rfl]
    rfl
  | false =>
    have hsame : st.code.modify (st.code.size - 1) (annotated false comment) = st.code := by
      refine Array.toList_inj.mp ?_
      rw [Array.toList_modify]
      exact List.modify_id _ _
    rw [annotate, h, if_neg (by decide), hsame]
    rfl

private theorem Answers.annotate (comment : String) (hst : st.Like k st') :
    Answers k Any (annotate k.first comment) (annotate k.second comment) st st' := by
  have hlike {s s' : Statement} {pool : List Value} (h : s.Like k pool s') :
      (annotated k.comments comment s).Like k pool (annotated k.comments' comment s') := by
    have hsame (c : Bool) (s : Statement) : (annotated c comment s).op = s.op ∧
        (annotated c comment s).operands = s.operands ∧ (annotated c comment s).synthetic = s.synthetic := by
      cases c <;> exact ⟨rfl, rfl, rfl⟩
    obtain ⟨hop, has, hsynthetic⟩ := hsame k.comments s
    obtain ⟨hop', has', hsynthetic'⟩ := hsame k.comments' s'
    refine ⟨?_, ?_, fun hcomments ↦ ?_, ?_⟩
    · rw [hop, hop', h.op]
    · rw [has, has']
      exact h.operands
    · rw [hcomments]
      cases k.comments' with
      | true => rfl
      | false => exact h.comment hcomments
    · rw [hsynthetic, hsynthetic', h.synthetic]
  have hcode : State.Like k
      { st with code := st.code.modify (st.code.size - 1) (annotated k.comments comment) }
      { st' with code := st'.code.modify (st'.code.size - 1) (annotated k.comments' comment) } := by
    refine ⟨?_, hst.constants, hst.rest⟩
    have hsize : st.code.size = st'.code.size := hst.code.length_eq
    rw [Array.toList_modify, Array.toList_modify, hsize]
    exact forall₂_modify (fun _ _ ↦ hlike) hst.code _
  exact .ok [] (List.forall_mem_nil _) ⟨rfl, trivial⟩ hcode (fun _ ↦ annotate_eq k.first comment _) fun _ ↦
    annotate_eq k.second comment _

private theorem ifReachable_eq (act : Lower Unit) (st : State) : ifReachable act st =
    if st.code.back?.any (·.op.isUnconditionalExit) then .ok () st else act st := by
  have hstep : ifReachable act st =
    (if (!st.code.back?.any (·.op.isUnconditionalExit)) = true then act else Pure.pure ()) st := rfl
  rw [hstep]
  cases st.code.back?.any (·.op.isUnconditionalExit) <;> rfl

/-- A step is run where control can be, in both runs or in neither. -/
private theorem Answers.ifReachable {a a' : Lower Unit} (h : Answers k Any a a' st st')
    (hst : st.Like k st') :
    Answers k Any (ifReachable a) (ifReachable a') st st' := by
  have hops {pool : List Value} {code code' : List Statement}
      (h : List.Forall₂ (Statement.Like k pool) code code') :
      code.map (·.op) = code'.map (·.op) := by
    induction h with
    | nil => rfl
    | cons hs _ ih => rw [List.map_cons, List.map_cons, hs.op, ih]
  have hback (st : State) : st.code.back?.any (·.op.isUnconditionalExit) =
      (st.code.toList.map (·.op)).getLast?.any (·.isUnconditionalExit) := by
    rw [List.getLast?_map, Option.any_map, Array.getLast?_toList]
  have hreach : st.code.back?.any (·.op.isUnconditionalExit) =
      st'.code.back?.any (·.op.isUnconditionalExit) := by
    rw [hback, hback, hops hst.code]
  cases hexit : st'.code.back?.any (·.op.isUnconditionalExit) with
  | true =>
    refine (Answers.done (a := ()) hst).of_eq (fun t ↦ ?_) fun t ↦ ?_
    · exact (ifReachable_eq _ _).trans (if_pos (hreach.trans hexit))
    · exact (ifReachable_eq _ _).trans (if_pos hexit)
  | false =>
    refine h.of_eq (fun t ↦ ?_) fun t ↦ ?_
    · exact (ifReachable_eq _ _).trans (if_neg (by rw [hreach, hexit]; decide))
    · exact (ifReachable_eq _ _).trans (if_neg (by rw [hexit]; decide))

private theorem Answers.clearBindings (scope : Scope) (hst : st.Like k st') :
    Answers k Any (clearBindings k.first scope) (clearBindings k.second scope) st st' := by
  induction scope generalizing st st' with
  | nil => exact .done hst
  | cons e rest ih =>
    obtain ⟨name, b⟩ := e
    cases b with
    | constant v => exact ih hst
    | register r ty =>
      refine (Answers.statement hst (.refl ?_)).bind fun _ _ hst₁ ↦
        (Answers.annotate name hst₁).bind fun _ _ hst₂ ↦ ih hst₂
      exact List.forall_mem_cons.mpr ⟨rfl, List.forall_mem_singleton.mpr rfl⟩

private theorem Answers.jump (l : String) (hst : st.Like k st') :
    Answers k Any (emitJump l) (emitJump l) st st' :=
  .statement hst (.refl (List.forall_mem_singleton.mpr rfl))

private theorem Answers.jumpOut (l : String) (d : Nat) (hst : st.Like k st') :
    Answers k Any (jumpOut k.first l d) (jumpOut k.second l d) st st' := by
  refine ((Answers.clearBindings (st'.scopes.take (st'.scopes.length - d)).flatten hst).bind
    fun _ _ hst₁ ↦ .jump l hst₁).of_eq (fun t ↦ ?_) fun t ↦ rfl
  rw [← hst.scopes]
  rfl

private theorem popScope_eq {ctx : Context} {scope : Scope} {outer : List Scope}
    (h : st.scopes = scope :: outer) :
    popScope ctx st = ifReachable (clearBindings ctx scope) { st with scopes := outer } := by
  obtain ⟨code, constants, nextRegister, registerNames, scopes, nextConstruct, functions⟩ := st
  subst h
  rfl

private theorem Answers.popScope (hst : st.Like k st') (hscopes : st'.scopes ≠ []) :
    Answers k Any (popScope k.first) (popScope k.second) st st' := by
  obtain ⟨scope, outer, hcons⟩ := List.exists_cons_of_ne_nil hscopes
  have hclosed := hst.rescoped fun _ ↦ outer
  exact ((Answers.clearBindings scope hclosed).ifReachable hclosed).of_eq
    (fun t ↦ popScope_eq (hst.scopes.trans hcons)) fun t ↦ popScope_eq hcons

private theorem Answers.bindName (name : String) (b : Binding) (hst : st.Like k st')
    (hscopes : st'.scopes ≠ []) :
    Answers k Any (bindName name b) (bindName name b) st st' := by
  have hrun {st : State} (h : st.scopes ≠ []) : Lowering.bindName name b st =
      .ok () { st with scopes := extendInnermost [(name, b)] st.scopes } :=
    congrArg (EStateM.Result.ok ()) (bindName_ok h rfl)
  have hscopes' : st.scopes ≠ [] := hst.scopes ▸ hscopes
  exact .ok [] (List.forall_mem_nil _) ⟨rfl, trivial⟩ (hst.rescoped (extendInnermost [(name, b)]))
    (fun _ ↦ hrun hscopes') fun _ ↦ hrun hscopes

private theorem Answers.bindRegister (name : String) (r : Nat) (ty : Ty) (hst : st.Like k st')
    (hscopes : st'.scopes ≠ []) :
    Answers k Any (bindRegister name r ty) (bindRegister name r ty) st st' := by
  have hnamed := hst.change
    (fun st ↦ { st with registerNames := st.registerNames ++ [(r, name)] }) (fun _ ↦ rfl) (fun _ ↦ rfl)
    fun _ ↦ rfl
  exact (Answers.bindName name (.register r ty) hnamed hscopes).of_eq (fun _ ↦ rfl) fun _ ↦ rfl

/-! ### Statements -/

/-- Steps that do the same in both runs and keep the second one ready. -/
private structure Corresponds (k : Setting) (held : List Nat) (depth : Nat) (act : Lower Unit)
    (act' : Recorded Unit) : Prop where
  answers : ∀ {st st' : State}, st'.Ready held depth → st.Like k st' → Answers k Any act act'.run st st'
  ready : ∀ {st st' : State} {u : Unit}, st.Ready held depth → act'.run st = .ok u st' → st'.Ready held depth

private theorem ready_of_functions {t : FunctionTable}
    (h : State.Ready { st with functions := t } held depth) : st.Ready held depth :=
      ⟨h.held, h.known, h.depth⟩

namespace Corresponds

private theorem seq (ha : Corresponds k held depth a a') (hb : Corresponds k held depth b b') :
    Corresponds k held depth (a >>= fun _ ↦ b) (a' >>= fun _ ↦ b') where
  answers hready hst := (ha.answers hready hst).bind fun hrun _ hst₁ ↦
    hb.answers (ready_of_functions (ha.ready hready hrun)) hst₁
  ready hready hrun := by
    obtain ⟨_, st₁, ha', hb'⟩ := exists_of_run_bind hrun
    exact hb.ready (ha.ready hready ha') hb'

private theorem pure : Corresponds k held depth (Pure.pure ()) (Pure.pure ()) where
  answers _ hst := .done hst
  ready hready hrun := by
    cases hrun
    exact hready

private theorem statement (h : ∀ a ∈ s.operands, a.isPooled = false) :
    Corresponds k held depth (emitStatement s) (Recorded.lift (emitStatement s)) where
  answers _ hst := .statement hst (.refl h)
  ready hready hrun := hready.emitted hrun

private theorem label (l : String) : Corresponds k held depth (emitLabel l) (Recorded.lift (emitLabel l)) :=
  .statement (List.forall_mem_singleton.mpr rfl)

private theorem ofSteps (h : Steps k x held defs a a') (hfree : k.labelFree = true)
    (hanswers : ∀ {st st' : State}, st'.Ready held x.depth → st.Like k st' → Answers k Any a a'.run st st') :
    Corresponds k held x.depth a a' where
  answers := hanswers
  ready hready hrun := h.ready hfree hready hrun

private theorem jumpIfReachable (l : String) :
    Corresponds k held depth (emitJumpIfReachable l) (Recorded.lift (emitJumpIfReachable l)) where
  answers _ hst := (Answers.jump l hst).ifReachable hst
  ready hready hrun := by
    rcases ifReachable_ok hrun with hrun | ⟨-, rfl⟩
    · exact hready.emitted hrun
    · exact hready

private theorem protectedSteps {c f : Option String} {e : String} {body handler cleanup : Lower Unit}
    {body' handler' cleanup' : Recorded Unit} (hbody : Corresponds k held depth body body')
    (hhandler : Corresponds k held depth handler handler')
    (hcleanup : Corresponds k held depth cleanup cleanup') :
    Corresponds k held depth (protectedSteps c f e body handler cleanup)
      (protectedSteps c f e body' handler' cleanup') := by
  have hoption (l : Option String) : (optionalLabel l).isPooled = false := by
    cases l <;> rfl
  have htry : ∀ a ∈ [optionalLabel c, optionalLabel f, Operand.label e], a.isPooled = false :=
    List.forall_mem_cons.mpr
      ⟨hoption c, List.forall_mem_cons.mpr ⟨hoption f, List.forall_mem_singleton.mpr rfl⟩⟩
  have hcatch : Corresponds k held depth (handlerSteps c handler) (handlerSteps c handler') := by
    cases c with
    | none => exact .pure
    | some l => exact (label l).seq hhandler
  have hfinally : Corresponds k held depth (cleanupSteps f cleanup) (cleanupSteps f cleanup') := by
    cases f with
    | none => exact .pure
    | some l => exact (label l).seq (hcleanup.seq (.statement (List.forall_mem_nil _)))
  exact (statement htry).seq (hbody.seq ((jumpIfReachable e).seq (hcatch.seq (hfinally.seq (.label e)))))

end Corresponds

private theorem bind_declareLocal {name : String} {ty : Ty} (init : Nat → Lower Unit)
    (f : Operand → Lower Unit) :
    (declareLocal name ty init >>= f) = newRegisterNumber >>= fun r ↦ init r >>= fun _ ↦
      bindRegister name r ty >>= fun _ ↦ f (.register r ty) := by
  simp only [declareLocal, bind_assoc, pure_bind]
  rfl

private theorem run_declareLocal {name : String} {ty : Ty} (init : Nat → Recorded Unit)
    (f : Operand → Recorded Unit) :
    (declareLocal name ty init >>= f).run = newRegisterNumber >>= fun r ↦ (init r).run >>= fun _ ↦
      bindRegister name r ty >>= fun _ ↦ (f (.register r ty)).run :=
  bind_declareLocal (fun r ↦ (init r).run) fun v ↦ (f v).run

private theorem Exit.operands {caught : Bool} (h : Exit caught s) : ∀ a ∈ s.operands, a.isPooled = false := by
  cases h with
  | ret | rethrow => exact List.forall_mem_nil _
  | trap => exact List.forall_mem_singleton.mpr rfl

/-- Statement code does the same in both runs. -/
private theorem Steps.answers {act : Lower Unit} {act' : Recorded Unit} (h : Steps k x held defs act act')
    (hfree : k.labelFree = true) (hready : st'.Ready held x.depth) (hst : st.Like k st') :
    Answers k Any act act'.run st st' := by
  have hwithin (st : State) : Stock.Within ⟨st.nextRegister, []⟩ st.stock := ⟨Nat.le_refl _, List.nil_prefix⟩
  have hprovides {st : State} {held : List Nat} {depth : Nat} (h : st.Ready held depth) :
      st.Provides k fun _ ↦ True := h.provides (fun _ _ ↦ trivial) fun _ _ ↦ trivial
  induction h generalizing st st' with
  | pure => exact .done hst
  | fail e => exact .fail e hst
  | seq ha hb iha ihb =>
    exact (iha hready hst).bind fun hrun _ hst₁ ↦ ihb (ready_of_functions (ha.ready hfree hready hrun)) hst₁
  | built hbuilt =>
    exact (hbuilt (fun _ ↦ True) st'.nextRegister fun r hr ↦ ⟨trivial, hready.held r hr⟩).answers
      (hwithin st') (hprovides hready) hst
  | throw hbuilt =>
    exact ((hbuilt (fun _ ↦ True) st'.nextRegister).answers (hwithin st') (hprovides hready) hst).bind
      fun _ hv hst₁ ↦ .emit hst₁ (.cons hv.loads .nil)
  | exit hs => exact .statement hst (.refl hs.operands)
  | jump _ => exact .jump _ hst
  | jumpOut _ => exact .jumpOut _ _ hst
  | ifReachable _ ih => exact (ih hready hst).ifReachable hst
  | annotate comment => exact .annotate comment hst
  | register _ ih =>
    refine (ih st'.nextRegister hready.taken hst.taken).of_eq (fun t ↦ ?_) fun t ↦ rfl
    rw [← hst.nextRegister]
    rfl
  | @declare x held defs name ty init init' f f' hdepth hinit hf ihinit ihf =>
    have hdeclare : Answers k Any
        (init st'.nextRegister >>= fun _ ↦ bindRegister name st'.nextRegister ty >>= fun _ ↦
          f (.register st'.nextRegister ty))
        ((init' st'.nextRegister).run >>= fun _ ↦ bindRegister name st'.nextRegister ty >>= fun _ ↦
          (f' (.register st'.nextRegister ty)).run)
        { st with nextRegister := st.nextRegister + 1 }
        { st' with nextRegister := st'.nextRegister + 1 } := by
      refine (ihinit st'.nextRegister hready.taken hst.taken).bind fun hrun _ hst₁ ↦ ?_
      have hready₁ := ready_of_functions ((hinit st'.nextRegister).ready hfree hready.taken hrun)
      have hscopes := hready₁.scopes_ne_nil hdepth
      refine (Answers.bindRegister name st'.nextRegister ty hst₁ hscopes).bind fun hbind _ hst₂ ↦ ?_
      exact ihf _ (ready_of_functions (hready₁.named List.mem_cons_self hscopes hbind)) hst₂
    rw [bind_declareLocal, run_declareLocal]
    refine hdeclare.of_eq (fun t ↦ ?_) fun t ↦ rfl
    rw [← hst.nextRegister]
    rfl
  | constant hdepth _ => exact .bindName _ _ hst (hready.scopes_ne_nil hdepth)
  | scope hact ih =>
    rw [run_recordScope]
    refine ((ih hready.opened (hst.rescoped ([] :: ·))).bind fun hrun _ hst₁ ↦ ?_).of_eq (fun _ ↦ rfl)
      fun _ ↦ rfl
    exact .popScope hst₁ ((hact.ready hfree hready.opened hrun).scopes_ne_nil (Nat.succ_pos _))
  | construct kind parts _ _ ih =>
    exact .construct hst (ih st'.nextConstruct (hready.numbered _) hst.numbered)
  | loop _ ih => exact ih hready hst
  | inside _ _ _ ih =>
    refine (ih hready hst).of_eq (fun t ↦ ?_) fun t ↦ ?_
    · rw [← hready.depth, ← hst.scopes]
      rfl
    · rw [← hready.depth]
      rfl
  | @protect x _ _ _ _ _ _ _ handled cleaned clauses _ _ _ hbody hhandler _ hcleanup ihb ihh ihc =>
    have hbody := Corresponds.ofSteps hbody hfree ihb
    have hhandler := Corresponds.ofSteps (hhandler st'.nextConstruct) hfree (ihh st'.nextConstruct)
    have hcleanup := Corresponds.ofSteps hcleanup hfree ihc
    exact .construct hst ((hbody.protectedSteps hhandler hcleanup).answers (hready.numbered _) hst.numbered)

/-! ### Methods -/

private theorem like_empty : State.Like k {} {} where
  code := .nil
  constants := by
    split <;> rfl
  rest := rfl

/-- Telling of scopes changes nothing in the run of a method. -/
theorem run_lowerMethodBody {ctx : Context} (hplace : ctx.inPlace = false) (functions : FunctionTable) :
    (lowerMethodBody ctx : Recorded Unit).run { functions } =
      (lowerMethodBody ctx : Lower Unit) { functions } := by
  have hsteps := Context.steps hplace .loose fun h ↦ absurd rfl h
  have hmixed : Loading.pooled ≠ .mixed := by decide
  cases hsteps.answers rfl (.start .empty) like_empty with
  | ok calls _ _ hlike hrun hrun' =>
    exact (hrun' functions).trans ((congrArg (EStateM.Result.ok ()) (hlike.eq hmixed rfl _)).symm.trans
      (hrun functions).symm)
  | error e calls _ hlike hrun hrun' =>
    exact (hrun' functions).trans ((congrArg (EStateM.Result.error e) (hlike.eq hmixed rfl _)).symm.trans
      (hrun functions).symm)

end Lowering

/-- Two functions are the same, but for operands that load arrays and tables, the pool that they load them
from, and comments. -/
structure LoweredFunction.Like (k : Setting) (f f' : LoweredFunction) : Prop where
  code : List.Forall₂ (Statement.Like k f'.constants) f.code f'.code
  constants : f.constants = if k.loading = .mixed then [] else f'.constants
  rest : f = { f' with code := f.code, constants := f.constants }

/-- Both runs fail alike on a method, or make functions of it that are alike. Either way they declare the
same functions, whatever functions are known. -/
theorem lowerIn_alike (k : Setting) (hsecond : k.loading.second = false) (hfree : k.labelFree = true)
    (hloose : k.strictness = .loose) (h : ∀ f ∈ k.method.body.callees k.symbols, k.allowed f.1 f.2) :
    ∃ calls, (∀ c ∈ calls, k.allowed c.1 c.2) ∧
      ((∃ f f' : LoweredFunction, f.Like k f' ∧ ∀ t, lowerIn k.first t = (.ok f, t.declareImplicit calls) ∧
          lowerIn k.second t = (.ok f', t.declareImplicit calls)) ∨
        ∃ e, ∀ t, lowerIn k.first t = (.error e, t.declareImplicit calls) ∧
          lowerIn k.second t = (.error e, t.declareImplicit calls)) := by
  have hok {ctx : Context} {t t' : FunctionTable} {st : State} {u : Unit}
      (h : (lowerMethodBody ctx : Lower Unit) { functions := t } = .ok u { st with functions := t' }) :
      lowerIn ctx t = (.ok (st.toFunction ctx.method), t') := by
    rw [lowerIn, h]
    rfl
  have herror {ctx : Context} {t t' : FunctionTable} {st : State} {e : Error}
      (h : (lowerMethodBody ctx : Lower Unit) { functions := t } = .error e { st with functions := t' }) :
      lowerIn ctx t = (.error e, t') := by
    rw [lowerIn, h]
  have hsteps := steps_lowerMethodBody k hsecond (fun hk ↦ absurd hloose hk) h
  cases hsteps.answers hfree (.start .empty) like_empty with
  | @ok _ _ st st' calls hcalls _ hlike hrun hrun' =>
    have hrest := congrArg (fun st₀ : State ↦
      { st₀.toFunction k.method with code := st.code.toList, constants := st.constants }) hlike.rest
    exact ⟨calls, hcalls, .inl ⟨st.toFunction k.method, st'.toFunction k.method,
      ⟨hlike.code, hlike.constants, hrest⟩, fun t ↦ ⟨hok (hrun t),
        hok ((run_lowerMethodBody hsecond t).symm.trans (hrun' t))⟩⟩⟩
  | error e calls hcalls _ hrun hrun' =>
    exact ⟨calls, hcalls, .inr ⟨e, fun t ↦ ⟨herror (hrun t),
      herror ((run_lowerMethodBody hsecond t).symm.trans (hrun' t))⟩⟩⟩

/-- A method that is lowered has had a run, which could have told of its scopes. -/
theorem exists_of_lowerMethod {m : Method} {symbols : SymbolTable} {o : Options} {t : FunctionTable}
    {f : LoweredFunction} (h : (lowerMethod m symbols o t).1 = .ok f) :
    ∃ st : State, f = st.toFunction m ∧
      (lowerMethodBody { method := m, symbols, comments := o.comments } : Recorded Unit).run
        { functions := t } = .ok () st := by
  rw [run_lowerMethodBody rfl]
  rw [lowerMethod, lowerIn] at h
  split at h
  · next st hrun =>
    cases h
    exact ⟨st, rfl, hrun⟩
  · cases h

end MethodCompiler
