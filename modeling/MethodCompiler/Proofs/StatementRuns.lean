import MethodCompiler.Proofs.ExpressionRuns
import MethodCompiler.Proofs.StatementSteps

/-!
# Runs of statement code

What a run of statement code does follows from the steps that it is put together from. It takes registers,
gives them to locals in the scope that it stands in, and emits statements that are laid out by constructs
and sound if the code before them is.
-/

namespace MethodCompiler

namespace Lowering

/-! ### States between statements -/

/-- What a name stands for is a register that is in use and known as a local's, or holds no labels. -/
def Binding.Known (st : State) : Binding → Prop
  | register r _ => r < st.nextRegister ∧ st.Names r
  | constant v => v.hasLabel = false

/-- A state in which a statement can be run: registers that are held are in use, what names stand for is
known, and so many scopes are open. -/
structure State.Ready (st : State) (held : List Nat) (depth : Nat) : Prop where
  held : ∀ r ∈ held, r < st.nextRegister
  known : ∀ scope ∈ st.scopes, ∀ e ∈ scope, e.2.Known st
  depth : st.scopes.length = depth

/-- What a run of statement code has done to the state, in the scope that it stands in. -/
structure Advances (st st' : State) (part : List Statement) : Prop extends Appends st st' part where
  registers : st.nextRegister ≤ st'.nextRegister
  names : ∀ r, st.Names r → st'.Names r
  scopes : ∃ added, st'.scopes = extendInnermost added st.scopes ∧ ∀ e ∈ added, e.2.Known st'
  sound : SoundCode st.bare st.constants → SoundCode st'.bare st'.constants

variable {k : Setting} {x : Spot} {held : List Nat} {defs defs' : List String} {depth r : Nat}
  {st st₁ st₂ st' : State} {part part₁ part₂ : List Statement} {s : Statement} {u : Unit} {own : Nat → Prop}

private theorem Binding.Known.mono {b : Binding} (h : b.Known st)
    (hregisters : st.nextRegister ≤ st'.nextRegister) (hnames : ∀ r, st.Names r → st'.Names r) :
    b.Known st' := by
  cases b with
  | register r ty => exact ⟨Nat.lt_of_lt_of_le h.1 hregisters, hnames r h.2⟩
  | constant v => exact h

namespace State.Ready

/-- The register of a local in scope is in use and known as a local's. -/
theorem inScope (h : st.Ready held depth) (hr : st.InScope r) : r < st.nextRegister ∧ st.Names r := by
  obtain ⟨scope, hscope, name, ty, hmem⟩ := hr
  exact h.known scope hscope _ hmem

/-- The registers of locals and of those to come are provided for expression code. -/
theorem provides (h : st.Ready held depth) (hscope : ∀ r, st.InScope r → own r)
    (hfresh : ∀ r, st.nextRegister ≤ r → own r) : st.Provides k own where
  bound name := by
    cases hb : binding? st.scopes name with
    | none => exact trivial
    | some b =>
      obtain ⟨scope, hmem, name', hentry⟩ := mem_of_binding? hb
      have hknown := h.known scope hmem _ hentry
      cases b with
      | register r ty => exact ⟨hscope r ⟨scope, hmem, name', ty, hentry⟩, hknown.1⟩
      | constant v => exact fun _ ↦ hknown
  fresh := hfresh

/-- A register is taken and held. -/
theorem taken (h : st.Ready held depth) :
    State.Ready { st with nextRegister := st.nextRegister + 1 } (st.nextRegister :: held) depth where
  held := List.forall_mem_cons.mpr ⟨Nat.lt_succ_self _, fun r hr ↦ Nat.lt_succ_of_lt (h.held r hr)⟩
  known scope hscope e he := (h.known scope hscope e he).mono (Nat.le_succ _) fun _ ↦ id
  depth := h.depth

/-- A scope is opened. -/
theorem opened (h : st.Ready held depth) :
    State.Ready { st with scopes := [] :: st.scopes } held (depth + 1) where
  held := h.held
  known := List.forall_mem_cons.mpr ⟨List.forall_mem_nil _, h.known⟩
  depth := congrArg (· + 1) h.depth

/-- Some scope is open. -/
theorem scopes_ne_nil (h : st.Ready held depth) (hdepth : 0 < depth) : st.scopes ≠ [] := by
  rw [← h.depth] at hdepth
  exact List.length_pos_iff.mp hdepth

/-- A register that is held is given to a local. -/
theorem named {name : String} {ty : Ty} (h : st.Ready held depth) (hr : r ∈ held) (hscopes : st.scopes ≠ [])
    (hbind : bindRegister name r ty st = .ok u st') : st'.Ready held depth := by
  obtain rfl := bindRegister_ok hscopes hbind
  refine ⟨h.held, fun scope hscope e he ↦ ?_, (length_extendInnermost _ _).trans h.depth⟩
  rcases mem_of_extendInnermost hscope he with he | ⟨scope', hscope', he⟩
  · obtain rfl := List.mem_singleton.mp he
    exact ⟨h.held r hr, name, List.mem_append_right _ (List.mem_singleton_self _)⟩
  · refine (h.known scope' hscope' e he).mono (Nat.le_refl _) ?_
    rintro r ⟨name', hmem⟩
    exact ⟨name', List.mem_append_left _ hmem⟩

/-- A method can be run from the start. -/
theorem start (functions : FunctionTable) : State.Ready { functions } [] 0 :=
  ⟨List.forall_mem_nil _, List.forall_mem_nil _, rfl⟩

/-- A construct is numbered. -/
theorem numbered (h : st.Ready held depth) (n : Nat) :
    State.Ready { st with nextConstruct := n } held depth :=
  ⟨h.held, h.known, h.depth⟩

/-- A statement is emitted. -/
theorem emitted (h : st.Ready held depth) (hrun : emitStatement s st = .ok u st') : st'.Ready held depth := by
  cases hrun
  exact ⟨h.held, h.known, h.depth⟩

end State.Ready

/-- Expression code can be run where a statement can be run. -/
theorem Built.ran_of_ready {α : Type} {near : List String} {P : Stock → α → α → Prop} {act act' : Lower α}
    {a' : α}
    (h : Built k (fun _ ↦ True) near defs ⟨st.nextRegister, []⟩ P act act') (hst : st.Ready held depth)
    (hrun : act' st = .ok a' st') :
    (∃ a, P st'.stock a a') ∧ ∃ part, Ran k (fun _ ↦ True) near defs st st' part :=
  h.ran ⟨Nat.le_refl _, List.nil_prefix⟩ (hst.provides (fun _ _ ↦ trivial) fun _ _ ↦ trivial) hrun

namespace Advances

/-- A step that adds no names. -/
private theorem of_scopes (happ : Appends st st' part) (hregisters : st.nextRegister ≤ st'.nextRegister)
    (hnames : st'.registerNames = st.registerNames) (hscopes : st'.scopes = st.scopes)
    (hsound : SoundCode st.bare st.constants → SoundCode st'.bare st'.constants) : Advances st st' part where
  toAppends := happ
  registers := hregisters
  names r hr := by
    rw [State.Names, hnames]
    exact hr
  scopes := ⟨[], by rw [hscopes, extendInnermost_nil], List.forall_mem_nil _⟩
  sound := hsound

private theorem refl (st : State) : Advances st st [] := .of_scopes (.refl st) (Nat.le_refl _) rfl rfl id

/-- One step after another. -/
private theorem trans (h₁ : Advances st st₁ part₁) (h₂ : Advances st₁ st₂ part₂) :
    Advances st st₂ (part₁ ++ part₂) where
  toAppends := h₁.toAppends.trans h₂.toAppends
  registers := Nat.le_trans h₁.registers h₂.registers
  names r hr := h₂.names r (h₁.names r hr)
  scopes := by
    obtain ⟨added₁, hscopes₁, hknown₁⟩ := h₁.scopes
    obtain ⟨added₂, hscopes₂, hknown₂⟩ := h₂.scopes
    refine ⟨added₁ ++ added₂, by rw [hscopes₂, hscopes₁, extendInnermost_append], ?_⟩
    exact List.forall_mem_append.mpr ⟨fun e he ↦ (hknown₁ e he).mono h₂.registers h₂.names, hknown₂⟩
  sound h := h₂.sound (h₁.sound h)

/-- An emitted statement. -/
private theorem emitted (hrun : emitStatement s st = .ok u st') (hs : s.bare.Sound st.constants) :
    Advances st st' [s.bare] := by
  have happ := (appends_of_emitStatement hrun).1
  cases hrun
  refine .of_scopes happ (Nat.le_refl _) rfl rfl fun h ↦ ?_
  rw [happ.code]
  exact h.append (List.forall_mem_singleton.mpr hs)

/-- A step seen from where its construct has no number yet. -/
private theorem unnumbered {n : Nat} (h : Advances { st with nextConstruct := n } st' part) :
    Advances st st' part :=
  ⟨⟨h.code, h.constants⟩, h.registers, h.names, h.scopes, h.sound⟩

/-- A state stays ready. -/
theorem ready (h : Advances st st' part) (hst : st.Ready held depth) : st'.Ready held depth where
  held r hr := Nat.lt_of_lt_of_le (hst.held r hr) h.registers
  known scope hscope e he := by
    obtain ⟨added, hscopes, hknown⟩ := h.scopes
    rw [hscopes] at hscope
    rcases mem_of_extendInnermost hscope he with he | ⟨scope', hscope', he⟩
    · exact hknown e he
    · exact (hst.known scope' hscope' e he).mono h.registers h.names
  depth := by
    obtain ⟨added, hscopes, -⟩ := h.scopes
    rw [hscopes, length_extendInnermost, hst.depth]

end Advances

/-- A run of expression code leaves the scopes as they are. -/
private theorem Ran.advances {near : List String} (h : Ran k own near defs st st' part)
    (hfree : k.labelFree = true) : Advances st st' part :=
  .of_scopes h.toAppends h.registers h.names h.scopes (h.sound hfree)

/-! ### Layout -/

/-- The labels that a jump may go to. -/
def Spot.targets (x : Spot) : List String := x.near ++ (x.jumps ++ x.far.map (·.1))

/-- What a run of statement code has done. -/
structure Went (k : Setting) (x : Spot) (defs : List String) (st st' : State) (part : List Statement) : Prop
    extends Advances st st' part where
  laid : ∀ pool, st'.constants <+: pool → Laid (k.strictness == .sealed) pool (defs ++ x.targets)
    (defs ++ x.near) st.nextConstruct st'.nextConstruct defs part

private theorem targets_ahead (x : Spot) (labels : List String) :
    (x.ahead labels).targets = labels ++ x.targets := List.append_assoc _ _ _

private theorem near_targets {l : String} (h : l ∈ x.near) : l ∈ x.targets := List.mem_append_left _ h

private theorem jumps_targets {l : String} (h : l ∈ x.jumps) : l ∈ x.targets :=
  List.mem_append_right _ (List.mem_append_left _ h)

private theorem far_targets {e : String × Nat} (h : e ∈ x.far) : e.1 ∈ x.targets :=
  List.mem_append_right _ (List.mem_append_right _ (List.mem_map_of_mem h))

private theorem inside_targets {breakLabel : String} {continueLabel : Option String}
    (hbreak : breakLabel ∈ x.near)
    (hcontinue : ∀ l ∈ continueLabel, l ∈ x.near) :
    ∀ l ∈ (x.inside breakLabel continueLabel).targets, l ∈ x.targets := by
  refine List.forall_mem_append.mpr ⟨fun l hl ↦ near_targets (x := x) hl, List.forall_mem_append.mpr
    ⟨fun l hl ↦ jumps_targets (x := x) hl, List.forall_mem_map.mpr ?_⟩⟩
  cases continueLabel with
  | none => exact List.forall_mem_cons.mpr ⟨near_targets hbreak, fun _ ↦ far_targets⟩
  | some l =>
    exact List.forall_mem_cons.mpr ⟨near_targets hbreak,
      List.forall_mem_singleton.mpr (near_targets (hcontinue l rfl))⟩

namespace Went

private theorem refl (st : State) : Went k x [] st st [] := ⟨.refl st, fun _ _ ↦ .nil⟩

private theorem seq (h₁ : Went k (x.ahead defs') defs st st₁ part₁) (h₂ : Went k x defs' st₁ st₂ part₂) :
    Went k x (defs ++ defs') st st₂ (part₁ ++ part₂) where
  toAdvances := h₁.toAdvances.trans h₂.toAdvances
  laid pool hpool := by
    have hlaid₁ := h₁.laid pool (h₂.constants.trans hpool)
    rw [targets_ahead, Spot.ahead, ← List.append_assoc, ← List.append_assoc] at hlaid₁
    refine hlaid₁.append ((h₂.laid pool hpool).mono (fun l hl ↦ ?_) fun l hl ↦ ?_)
    · rw [List.append_assoc]
      exact List.mem_append_right _ hl
    · rw [List.append_assoc]
      exact List.mem_append_right _ hl

/-- A step seen from a spot with more around it. -/
private theorem mono {y : Spot} (h : Went k x defs st st' part)
    (htargets : ∀ l ∈ x.targets, l ∈ defs ++ y.targets)
    (hnear : ∀ l ∈ x.near, l ∈ defs ++ y.near) : Went k y defs st st' part := by
  refine ⟨h.toAdvances, fun pool hpool ↦ (h.laid pool hpool).mono ?_ ?_⟩
  · exact List.forall_mem_append.mpr ⟨fun _ ↦ List.mem_append_left _, htargets⟩
  · exact List.forall_mem_append.mpr ⟨fun _ ↦ List.mem_append_left _, hnear⟩

/-- A step that emits no code. -/
private theorem quiet (hbare : st'.bare = st.bare) (hconstants : st'.constants = st.constants)
    (hregisters : st.nextRegister ≤ st'.nextRegister) (hnames : ∀ r, st.Names r → st'.Names r)
    (hscopes : ∃ added, st'.scopes = extendInnermost added st.scopes ∧ ∀ e ∈ added, e.2.Known st')
    (hnext : st'.nextConstruct = st.nextConstruct) : Went k x [] st st' [] where
  code := by rw [hbare, List.append_nil]
  constants := hconstants ▸ List.prefix_rfl
  registers := hregisters
  names := hnames
  scopes := hscopes
  sound h := by
    rw [hbare, hconstants]
    exact h
  laid _ _ := by
    rw [hnext]
    exact .nil

/-- A step that only emits code. -/
private theorem emitted {code : Array Statement} (hcode : code.toList.map Statement.bare = st.bare ++ part)
    (hsound : ∀ s ∈ part, s.Sound st.constants)
    (hlaid : ∀ {pool : List Value} {n : Nat},
      Laid (k.strictness == .sealed) pool (defs ++ x.targets) (defs ++ x.near) n n defs part) :
    Went k x defs st { st with code } part where
  toAdvances := .of_scopes ⟨hcode, List.prefix_rfl⟩ (Nat.le_refl _) rfl rfl fun h ↦ by
    rw [State.bare, hcode]
    exact h.append hsound
  laid _ _ := hlaid

/-- One statement is emitted. -/
private theorem statement (hrun : emitStatement s st = .ok u st') (hs : s.bare.Sound st.constants)
    (hlaid : ∀ {pool : List Value} {n : Nat},
      Laid (k.strictness == .sealed) pool (defs ++ x.targets) (defs ++ x.near) n n defs [s.bare]) :
    Went k x defs st st' [s.bare] := by
  cases hrun
  exact .emitted (bare_push st s) (List.forall_mem_singleton.mpr hs) hlaid

private theorem exit {caught : Bool} (hs : Exit caught s) (hrun : emitStatement s st = .ok u st') :
    Went k x [] st st' [s.bare] := by
  cases hs with
  | ret | rethrow =>
    exact .statement hrun (Statement.sound_of_isPlain rfl (.inl rfl) (List.forall_mem_nil _) (Nat.zero_le _))
      (.statement rfl)
  | trap =>
    exact .statement hrun (Statement.sound_of_isPlain rfl (.inr rfl) (List.forall_mem_singleton.mpr rfl)
      (Nat.zero_le _)) (.statement rfl)

private theorem jump {l : String} (hl : l ∈ x.targets) (hrun : emitJump l st = .ok u st') :
    Went k x [] st st' [Statement.jump l] := by
  refine .statement hrun (Statement.sound_of_isBranch rfl (List.forall_mem_nil _)) ?_
  exact .branch rfl rfl hl (by rintro ⟨⟩)

private theorem clears {scope : Scope} (h : s ∈ clearCode scope) :
    s.op.isOrdinary = true ∧ ∀ constants, s.Sound constants := by
  obtain ⟨r, -, ty, rfl⟩ := exists_of_mem_clearCode h
  exact ⟨rfl, fun _ ↦ Statement.sound_nullify r ty⟩

private theorem jumpOut {l : String} {d : Nat} {ctx : Context} (hl : (l, d) ∈ x.far)
    (hrun : Lowering.jumpOut ctx l d st = .ok u st') : ∃ part, Went k x [] st st' part := by
  obtain ⟨code, rfl, hcode⟩ := jumpOut_ok hrun
  refine ⟨_, .emitted hcode (List.forall_mem_append.mpr ⟨fun s hs ↦ (clears hs).2 _, ?_⟩) ?_⟩
  · exact List.forall_mem_singleton.mpr (Statement.sound_of_isBranch rfl (List.forall_mem_nil _))
  · exact (Laid.of_isOrdinary fun s hs ↦ (clears hs).1).append
      (.branch rfl rfl (far_targets hl) (by rintro ⟨⟩))

/-- A local gets its name. -/
private theorem bound {b : Binding} {name : String} (hknown : b.Known st) (hscopes : st.scopes ≠ [])
    (hrun : bindName name b st = .ok u st') : Went k x [] st st' [] := by
  obtain rfl := bindName_ok hscopes hrun
  exact .quiet rfl rfl (Nat.le_refl _) (fun _ ↦ id)
    ⟨[(name, b)], rfl, List.forall_mem_singleton.mpr hknown⟩ rfl

/-- Expression code. -/
private theorem ofRan (h : Ran k own x.near defs st st' part) (hfree : k.labelFree = true) :
    Went k x defs st st' part where
  toAdvances := h.advances hfree
  laid _ hpool := (h.laid (fun _ ↦ near_targets) hpool).mono (fun _ ↦ List.mem_append_right _)
    fun _ ↦ List.mem_append_right _

/-- A step seen from where its register is not in use yet. -/
private theorem untaken (h : Went k x defs { st with nextRegister := st.nextRegister + 1 } st' part) :
    Went k x defs st st' part :=
  ⟨⟨⟨h.code, h.constants⟩, Nat.le_of_succ_le h.registers, h.names, h.scopes, h.sound⟩, h.laid⟩

/-- A local is declared after the step that computes its first value. -/
private theorem declared {name : String} {ty : Ty} (hscopes : st₁.scopes ≠ [])
    (h : Went k x.alone [] { st with nextRegister := st.nextRegister + 1 } st₁ part)
    (hbind : bindRegister name st.nextRegister ty st₁ = .ok u st₂) :
    Went k x [] { st with nextRegister := st.nextRegister + 1 } st₂ part := by
  have hinit : Went k (x.ahead []) [] { st with nextRegister := st.nextRegister + 1 } st₁ part :=
    h.mono (List.forall_mem_nil _) (List.forall_mem_nil _)
  obtain rfl := bindRegister_ok hscopes hbind
  have hnamed : State.Names { st₁ with
      registerNames := st₁.registerNames ++ [(st.nextRegister, name)]
      scopes := extendInnermost [(name, .register st.nextRegister ty)] st₁.scopes } st.nextRegister :=
    ⟨name, List.mem_append_right _ (List.mem_singleton_self _)⟩
  have hname : Went k x [] st₁ { st₁ with
      registerNames := st₁.registerNames ++ [(st.nextRegister, name)]
      scopes := extendInnermost [(name, .register st.nextRegister ty)] st₁.scopes } [] := by
    refine .quiet rfl rfl (Nat.le_refl _) ?_ ⟨_, rfl, List.forall_mem_singleton.mpr ⟨h.registers, hnamed⟩⟩ rfl
    rintro r ⟨name', hmem⟩
    exact ⟨name', List.mem_append_left _ hmem⟩
  have hall := hinit.seq hname
  rwa [List.append_nil, List.append_nil] at hall

/-- A scope is closed, and the registers of its locals are cleared. -/
private theorem scope {ctx : Context} (h : Went k x.scope defs { st with scopes := [] :: st.scopes } st₁ part)
    (hpop : popScope ctx st₁ = .ok u st') : ∃ part, Went k x defs st st' part := by
  obtain ⟨added, hscopes, -⟩ := h.scopes
  obtain ⟨code, clears, rfl, hcode, hclears⟩ := popScope_ok hscopes hpop
  have hmem : ∀ s ∈ clears, s ∈ clearCode ([] ++ added) := by
    rcases hclears with ⟨-, rfl⟩ | rfl
    · exact List.forall_mem_nil _
    · exact fun _ ↦ id
  refine ⟨part ++ clears, ⟨⟨?_, h.constants⟩, h.registers, h.names,
    ⟨[], (extendInnermost_nil _).symm, List.forall_mem_nil _⟩, fun hst ↦ ?_⟩, fun pool hpool ↦ ?_⟩
  · rw [State.bare, hcode, h.code, List.append_assoc]
    rfl
  · rw [State.bare, hcode]
    exact (h.sound hst).append fun s hs ↦ (Went.clears (hmem s hs)).2 _
  · have hordinary : Laid (k.strictness == .sealed) pool (defs ++ x.targets) (defs ++ x.near)
        st₁.nextConstruct st₁.nextConstruct [] clears :=
      .of_isOrdinary fun s hs ↦ (Went.clears (hmem s hs)).1
    have hinner : Laid (k.strictness == .sealed) pool (defs ++ x.targets) (defs ++ x.near)
        st.nextConstruct st₁.nextConstruct defs part := by
      refine (h.laid pool hpool).mono
        (List.forall_mem_append.mpr ⟨fun _ ↦ List.mem_append_left _, fun l hl ↦ ?_⟩)
        (List.forall_mem_append.mpr ⟨fun _ ↦ List.mem_append_left _, List.forall_mem_nil _⟩)
      obtain ⟨e, he, rfl⟩ := List.mem_map.mp hl
      exact List.mem_append_right _ (far_targets he)
    have hall := hinner.append hordinary
    rwa [List.append_nil] at hall

end Went

/-! ### Runs of steps with parts -/

/-- A local takes its register, is given its first value and then its name. -/
theorem exists_of_declareLocal {name : String} {ty : Ty} {init : Nat → Recorded Unit}
    {f : Operand → Recorded Unit} (h : (declareLocal name ty init >>= f).run st = .ok u st') :
    ∃ st₁ st₂, (init st.nextRegister).run { st with nextRegister := st.nextRegister + 1 } = .ok () st₁ ∧
      bindRegister name st.nextRegister ty st₁ = .ok () st₂ ∧
      (f (.register st.nextRegister ty)).run st₂ = .ok u st' := by
  obtain ⟨a, st₃, hlocal, hf⟩ := exists_of_run_bind h
  obtain ⟨_, _, hnew, hlocal⟩ := exists_of_run_bind hlocal
  cases hnew
  obtain ⟨_, st₁, hinit, hlocal⟩ := exists_of_run_bind hlocal
  obtain ⟨_, st₂, hbind, hlocal⟩ := exists_of_run_bind hlocal
  cases hlocal
  exact ⟨st₁, _, hinit, hbind, hf⟩

/-- A scope is opened, something is run in it, and it is closed. -/
theorem exists_of_recordScope {ctx : Context} {act : Recorded Unit}
    (h : (recordScope ctx act).run st = .ok u st') :
    ∃ st₁, act.run { st with scopes := [] :: st.scopes } = .ok () st₁ ∧ popScope ctx st₁ = .ok () st' := by
  rw [run_recordScope] at h
  obtain ⟨_, _, hpush, h⟩ := exists_of_run_bind h
  cases hpush
  obtain ⟨_, st₁, hact, hpop⟩ := exists_of_run_bind h
  exact ⟨st₁, hact, hpop⟩

/-- The scopes that are open where a construct is entered stay open where it is left. -/
theorem run_inside {env : Surroundings} {breakLabel : String} {continueLabel : Option String}
    {act : Surroundings → Recorded Unit} (hst : st.Ready held depth)
    (h : (inside env breakLabel continueLabel act).run st = .ok u st') :
    (act { env with targets := ⟨breakLabel, continueLabel, depth⟩ :: env.targets }).run st = .ok u st' := by
  obtain ⟨_, _, henter, h⟩ := exists_of_run_bind h
  cases henter
  rw [← hst.depth]
  exact h

/-! ### Protected code -/

section Protected

variable {c f : Option String} {e : String} {clauses : List String} {body handler cleanup : Recorded Unit}

/-- The labels of a protected construct: of its handler, of its cleanup, of its end and of clauses. -/
private theorem constructLabels_protected (handled cleaned : Bool) (n : Nat)
    (h : PlainParts "try" ("end" :: clauses)) :
    ConstructLabels n ((phaseLabel handled n "catch").toList ++ (phaseLabel cleaned n "finally").toList)
      (labelName "try" n "end" :: clauses.map (labelName "try" n)) := by
  have hcatch : "catch" ∉ "end" :: clauses := fun hmem ↦ absurd (h.plain _ hmem) (by decide)
  have hfinally : "finally" ∉ "end" :: clauses := fun hmem ↦ absurd (h.plain _ hmem) (by decide)
  have hlabels (phases : List String) (hphases : ∀ part ∈ phases, part = "catch" ∨ part = "finally")
      (hnodup : phases.Nodup) : ConstructLabels n (phases.map (labelName "try" n))
        (("end" :: clauses).map (labelName "try" n)) := by
    refine constructLabels phases h.kind (List.nodup_append.mpr ⟨hnodup, h.nodup, ?_⟩) hphases h.plain
    rintro part hpart _ hmem rfl
    rcases hphases part hpart with rfl | rfl
    · exact hcatch hmem
    · exact hfinally hmem
  cases handled <;> cases cleaned
  · exact hlabels [] (by decide) (by decide)
  · exact hlabels ["finally"] (by decide) (by decide)
  · exact hlabels ["catch"] (by decide) (by decide)
  · exact hlabels ["catch", "finally"] (by decide) (by decide)

/-- The body ends in an exit, and starts after a statement that is none. -/
private theorem exists_went_body (h : Went k x.body [] st₁ st₂ part) (hst₁ : ¬Closed st₁.bare)
    (hjump : emitJumpIfReachable e st₂ = .ok u st') :
    ∃ part, Went k (x.handler e) [] st₁ st' part ∧ Closed part := by
  have hbody : Went k (x.handler e) [] st₁ st₂ part := by
    refine h.mono (fun l hl ↦ ?_) (List.forall_mem_nil _)
    exact List.mem_cons_of_mem _ hl
  have hclosed {part : List Statement} (h : Appends st₁ st' part) : Closed part := by
    have hend := ends_ifReachable rfl st₂ _ st' hjump
    rw [h.code] at hend
    exact closed_of_append hend hst₁
  rcases ifReachable_ok hjump with hjump | ⟨-, rfl⟩
  · have hwent := hbody.seq (.jump (x := x.handler e) List.mem_cons_self hjump)
    exact ⟨_, hwent, hclosed hwent.toAppends⟩
  · exact ⟨part, hbody, hclosed hbody.toAppends⟩

/-- A handler ends in an exit, and starts at its label. -/
private theorem exists_went_handler (hnone : c = none → clauses = [])
    (h : ∀ {st st' : State} {u : Unit}, st.Ready held x.depth → handler.run st = .ok u st' →
      ∃ part, Went k (x.handler e) clauses st st' part)
    (hends : c.isSome = true → Ends handler.run) (hst : st.Ready held x.depth)
    (hrun : (handlerSteps c handler).run st = .ok u st') :
    ∃ part, Advances st st' (c.elim [] fun l ↦ .label l :: part) ∧ (c = none → part = []) ∧
      (c.isSome = true → Closed part) ∧ ∀ pool, st'.constants <+: pool →
        Laid (k.strictness == .sealed) pool (clauses ++ (x.handler e).targets) clauses st.nextConstruct
          st'.nextConstruct clauses part := by
  cases c with
  | none =>
    cases hrun
    rw [hnone rfl]
    exact ⟨[], .refl st, fun _ ↦ rfl, by rintro ⟨⟩, fun _ _ ↦ .nil⟩
  | some l =>
    obtain ⟨_, st₁, hlabel, hrun⟩ := exists_of_run_bind hrun
    have hadvances : Advances st st₁ [Statement.label l] := .emitted hlabel (Statement.sound_label l)
    obtain ⟨part, hwent⟩ := h (hadvances.ready hst) hrun
    refine ⟨part, hadvances.trans hwent.toAdvances, by rintro ⟨⟩, fun _ ↦ ?_, fun pool hpool ↦ ?_⟩
    · have hclosed := hends rfl st₁ _ st' hrun
      rw [hwent.code] at hclosed
      apply closed_of_append hclosed
      rw [hadvances.code]
      exact not_closed_concat rfl
    · have hlaid := hwent.laid pool hpool
      cases hlabel
      rwa [Spot.handler, List.append_nil] at hlaid

/-- A cleanup starts at its label. -/
private theorem exists_went_cleanup (h : ∀ {st st' : State} {u : Unit}, st.Ready held x.depth →
      cleanup.run st = .ok u st' → ∃ part, Went k (x.cleanup (k.strictness == .sealed)) [] st st' part)
    (hst : st.Ready held x.depth) (hrun : (cleanupSteps f cleanup).run st = .ok u st') :
    ∃ part, Advances st st' (f.elim [] fun l ↦ .label l :: (part ++ [Statement.of .endFinally []])) ∧
      (f = none → part = []) ∧ ∀ pool, st'.constants <+: pool →
        Laid (k.strictness == .sealed) pool (x.cleanup (k.strictness == .sealed)).targets [] st.nextConstruct
          st'.nextConstruct [] part := by
  cases f with
  | none =>
    cases hrun
    exact ⟨[], .refl st, fun _ ↦ rfl, fun _ _ ↦ .nil⟩
  | some l =>
    obtain ⟨_, st₁, hlabel, hrun⟩ := exists_of_run_bind hrun
    obtain ⟨_, st₂, hcleanup, hend⟩ := exists_of_run_bind hrun
    have hadvances : Advances st st₁ [Statement.label l] := .emitted hlabel (Statement.sound_label l)
    obtain ⟨part, hwent⟩ := h (hadvances.ready hst) hcleanup
    have hlast : Advances st₂ st' [Statement.of .endFinally []] :=
      .emitted hend ⟨⟨List.forall_mem_nil _, by rintro ⟨⟩, by rintro ⟨⟩, by rintro ⟨⟩, by rintro ⟨⟩,
        by rintro ⟨⟩⟩, by rintro ⟨⟩⟩
    refine ⟨part, hadvances.trans (hwent.toAdvances.trans hlast), by rintro ⟨⟩, fun pool hpool ↦ ?_⟩
    have hlaid := hwent.laid pool (hlast.constants.trans hpool)
    cases hlabel
    cases hend
    exact hlaid

/-- A protected construct is laid out from its parts. -/
private theorem exists_went_protected (x : Spot) {handled cleaned : Bool} {n : Nat}
    (hnumber : st.nextConstruct = n + 1)
    (hparts : PlainParts "try" ("end" :: clauses))
    (hsome : k.strictness ≠ .loose → handled = true ∨ cleaned = true)
    (hnone : handled = false → clauses = [])
    (hbody : ∀ {st st' : State} {u : Unit}, st.Ready held x.depth → body.run st = .ok u st' →
      ∃ part, Went k x.body [] st st' part)
    (hhandler : ∀ {st st' : State} {u : Unit}, st.Ready held x.depth → handler.run st = .ok u st' →
      ∃ part, Went k (x.handler (labelName "try" n "end")) (clauses.map (labelName "try" n)) st st' part)
    (hends : handled = true → Ends handler.run)
    (hcleanup : ∀ {st st' : State} {u : Unit}, st.Ready held x.depth → cleanup.run st = .ok u st' →
      ∃ part, Went k (x.cleanup (k.strictness == .sealed)) [] st st' part)
    (hst : st.Ready held x.depth)
    (hrun : (protectedSteps (phaseLabel handled n "catch") (phaseLabel cleaned n "finally")
      (labelName "try" n "end") body handler cleanup).run st = .ok u st') :
    ∃ part, Advances st st' part ∧ ∀ pool, st'.constants <+: pool →
      Laid (k.strictness == .sealed) pool x.targets x.near n st'.nextConstruct [] part := by
  obtain ⟨_, st₁, htry, hrun⟩ := exists_of_run_bind hrun
  obtain ⟨_, st₂, hrunB, hrun⟩ := exists_of_run_bind hrun
  obtain ⟨_, st₃, hjump, hrun⟩ := exists_of_run_bind hrun
  obtain ⟨_, st₄, hrunH, hrun⟩ := exists_of_run_bind hrun
  obtain ⟨_, st₅, hrunC, hlabel⟩ := exists_of_run_bind hrun
  have hphase {present : Bool} {part : String} (h : phaseLabel present n part = none) : present = false := by
    cases present with
    | false => rfl
    | true => cases h
  have hpresent {present : Bool} {part : String} (h : (phaseLabel present n part).isSome = true) :
      present = true := by
    cases present with
    | false => cases h
    | true => rfl
  have h₁ : Advances st st₁ [_] := .emitted htry (Statement.sound_enterTry _ _ _)
  obtain ⟨part, hpart⟩ := hbody (h₁.ready hst) hrunB
  have hopen : ¬Closed st₁.bare := by
    rw [h₁.code]
    exact not_closed_concat rfl
  obtain ⟨partB, hB, hclosedB⟩ := exists_went_body hpart hopen hjump
  have h₃ := h₁.trans hB.toAdvances
  obtain ⟨partH, hH, hemptyH, hclosedH, hlaidH⟩ := exists_went_handler (fun h ↦ by rw [hnone (hphase h)]; rfl)
    hhandler (fun h ↦ hends (hpresent h)) (h₃.ready hst) hrunH
  obtain ⟨partC, hC, hemptyC, hlaidC⟩ := exists_went_cleanup hcleanup ((h₃.trans hH).ready hst) hrunC
  have h₅ : Advances st₅ st' [_] := .emitted hlabel (Statement.sound_label _)
  refine ⟨_, h₁.trans (hB.toAdvances.trans (hH.trans (hC.trans h₅))), fun pool hpool ↦ ?_⟩
  have hpool₅ := h₅.constants.trans hpool
  have hpool₄ := hC.constants.trans hpool₅
  have hout {e : String} : ∀ l ∈ (x.handler e).targets, l ∈ e :: x.targets :=
    List.forall_mem_cons.mpr ⟨List.mem_cons_self, fun l hl ↦
      List.mem_cons_of_mem _ (List.mem_append_right _ (List.mem_append_right _ hl))⟩
  have hlaidB : Laid (k.strictness == .sealed) pool (labelName "try" n "end" :: x.targets) [] (n + 1)
      st₃.nextConstruct [] partB := by
    have hlaid := (hB.laid pool (hH.constants.trans hpool₄)).mono hout fun _ ↦ id
    cases htry
    rwa [hnumber] at hlaid
  have hlaidC : Laid (k.strictness == .sealed) pool (if k.strictness == .sealed then [] else x.targets) []
      st₄.nextConstruct st'.nextConstruct [] partC := by
    have hnext : st'.nextConstruct = st₅.nextConstruct := (appends_of_emitStatement hlabel).2
    rw [hnext]
    refine (hlaidC pool hpool₅).mono ?_ fun _ ↦ id
    rw [Spot.cleanup, Spot.targets]
    cases k.strictness == .sealed with
    | true => exact List.forall_mem_nil _
    | false => exact fun l hl ↦ List.mem_append_right _ (List.mem_append_right _ hl)
  refine .protect (constructLabels_protected handled cleaned n hparts) (fun hk ↦ ?_) hlaidB hclosedB (.refl _)
    ((hlaidH pool hpool₄).mono (fun l hl ↦ ?_) fun _ ↦ id) hemptyH hclosedH hlaidC hemptyC
  · refine (hsome ?_).imp ?_ ?_
    · rw [beq_iff_eq.mp hk]
      decide
    · rintro rfl
      rfl
    · rintro rfl
      rfl
  · exact List.mem_append.mpr ((List.mem_append.mp hl).imp_right (hout l))

end Protected

/-- The code of a statement is laid out and sound. -/
theorem Steps.went {act : Lower Unit} {act' : Recorded Unit} (h : Steps k x held defs act act')
    (hfree : k.labelFree = true) (hst : st.Ready held x.depth) (hrun : act'.run st = .ok u st') :
    ∃ part, Went k x defs st st' part := by
  induction h generalizing st st' u with
  | pure =>
    cases hrun
    exact ⟨[], .refl st⟩
  | fail e => cases hrun
  | seq _ _ iha ihb =>
    obtain ⟨_, st₁, ha, hb⟩ := exists_of_run_bind hrun
    obtain ⟨part₁, h₁⟩ := iha hst ha
    obtain ⟨part₂, h₂⟩ := ihb (h₁.ready hst) hb
    exact ⟨_, h₁.seq h₂⟩
  | built hbuilt =>
    obtain ⟨-, part, hran⟩ :=
      (hbuilt (fun _ ↦ True) st.nextRegister fun r hr ↦ ⟨trivial, hst.held r hr⟩).ran_of_ready hst hrun
    exact ⟨part, .ofRan hran hfree⟩
  | @throw x _ _ _ hbuilt =>
    obtain ⟨v, st₁, hvalue, hthrow⟩ := exists_of_run_bind hrun
    obtain ⟨⟨_, hv⟩, part, hran⟩ := (hbuilt (fun _ ↦ True) st.nextRegister).ran_of_ready hst hvalue
    have hpart : Went k (x.ahead []) [] st st₁ part := .ofRan hran hfree
    refine ⟨_, hpart.seq (.statement hthrow ?_ (.statement rfl))⟩
    exact Statement.sound_of_isPlain rfl (.inl rfl) (List.forall_mem_singleton.mpr (hv.sound hfree))
      (Nat.le_refl _)
  | exit hs => exact ⟨_, .exit hs hrun⟩
  | jump hl => exact ⟨_, .jump (jumps_targets hl) hrun⟩
  | jumpOut hl => exact Went.jumpOut hl hrun
  | ifReachable _ ih =>
    rcases ifReachable_ok hrun with hrun | ⟨-, rfl⟩
    · exact ih hst hrun
    · exact ⟨[], .refl _⟩
  | annotate comment =>
    obtain ⟨code, rfl, hcode⟩ := annotate_ok hrun
    exact ⟨[], .emitted (hcode.trans (List.append_nil _).symm) (List.forall_mem_nil _) .nil⟩
  | register _ ih =>
    obtain ⟨_, _, hnew, hrun⟩ := exists_of_run_bind hrun
    cases hnew
    obtain ⟨part, hwent⟩ := ih _ hst.taken hrun
    exact ⟨part, hwent.untaken⟩
  | @declare x _ defs _ _ _ _ _ _ hdepth _ _ ihinit ihf =>
    obtain ⟨st₁, st₂, hinit, hbind, hf⟩ := exists_of_declareLocal hrun
    obtain ⟨part₁, h₁⟩ := ihinit _ hst.taken hinit
    have hlocal : Went k (x.ahead defs) [] { st with nextRegister := st.nextRegister + 1 } st₂ part₁ :=
      .declared ((h₁.ready hst.taken).scopes_ne_nil hdepth) h₁ hbind
    obtain ⟨part₂, h₂⟩ := ihf _ (hlocal.ready hst.taken) hf
    exact ⟨_, (hlocal.seq h₂).untaken⟩
  | @constant _ _ _ v hdepth hv =>
    have hknown : (Binding.constant v).Known st := hv
    exact ⟨[], .bound hknown (hst.scopes_ne_nil hdepth) hrun⟩
  | scope _ ih =>
    obtain ⟨st₁, hact, hpop⟩ := exists_of_recordScope hrun
    obtain ⟨part, hwent⟩ := ih hst.opened hact
    exact hwent.scope hpop
  | construct kind parts hparts _ ih =>
    obtain ⟨_, _, hnew, hrun⟩ := exists_of_run_bind hrun
    cases hnew
    obtain ⟨part, hwent⟩ := ih _ (hst.numbered _) hrun
    exact ⟨part, hwent.toAdvances.unnumbered, fun pool hpool ↦
      .construct (hparts.constructLabels st.nextConstruct) (.refl _) (hwent.laid pool hpool)⟩
  | loop _ ih =>
    obtain ⟨part, hwent⟩ := ih hst hrun
    refine ⟨part, hwent.mono (fun l hl ↦ List.mem_append_left _ ?_) fun _ ↦ List.mem_append_left _⟩
    rwa [Spot.loop, Spot.targets, List.map_nil, List.append_nil, List.append_nil] at hl
  | inside hbreak hcontinue _ ih =>
    obtain ⟨part, hwent⟩ := ih hst (run_inside hst hrun)
    exact ⟨part, hwent.mono (fun l hl ↦ List.mem_append_right _ (inside_targets hbreak hcontinue l hl))
      fun _ ↦ List.mem_append_right _⟩
  | @protect x _ _ _ _ _ _ _ handled cleaned clauses hparts hsome hnone _ _ hends _ ihb ihh ihc =>
    obtain ⟨n, st₁, hnew, hrun⟩ := exists_of_run_bind hrun
    cases hnew
    obtain ⟨part, hadvances, hlaid⟩ := exists_went_protected x rfl hparts hsome hnone ihb (ihh _)
      (fun h ↦ hends h _) ihc (hst.numbered _) hrun
    exact ⟨part, hadvances.unnumbered, hlaid⟩

/-- Where a statement has been run, the next one can be run. -/
theorem Steps.ready {act : Lower Unit} {act' : Recorded Unit} (h : Steps k x held defs act act')
    (hfree : k.labelFree = true) (hst : st.Ready held x.depth) (hrun : act'.run st = .ok u st') :
    st'.Ready held x.depth := by
  obtain ⟨part, hwent⟩ := h.went hfree hst hrun
  exact hwent.ready hst

/-! ### What steps bring about -/

/-- A step that starts from a ready state leaves one for the next step, and `R` tells what it has done, with
the scopes that it closes. -/
structure Brings (held : List Nat) (depth : Nat) (R : State → State → List ScopeSpan → Prop)
    (act : Recorded Unit) : Prop where
  run : ∀ {st st' : State} {u : Unit}, st.Ready held depth → act.run st = .ok u st' →
    st'.Ready held depth ∧ R st st' (act.closed st)

/-- The steps of a statement leave the state ready. -/
theorem Steps.brings {R : State → State → List ScopeSpan → Prop} {act : Lower Unit} {act' : Recorded Unit}
    (h : Steps k x held defs act act') (hfree : k.labelFree = true)
    (hR : ∀ {st st' : State} {u : Unit}, st.Ready held x.depth → act'.run st = .ok u st' →
      R st st' (act'.closed st)) : Brings held x.depth R act' where
  run hst hrun := ⟨h.ready hfree hst hrun, hR hst hrun⟩

/-- What two steps have done one after the other, from ready states, is told by `R`. -/
def Chains (held : List Nat) (depth : Nat) (R₁ R₂ R : State → State → List ScopeSpan → Prop) : Prop :=
  ∀ {st st₁ st₂ : State} {spans₁ spans₂ : List ScopeSpan}, st.Ready held depth → st₁.Ready held depth →
    R₁ st st₁ spans₁ → R₂ st₁ st₂ spans₂ → R st st₂ (spans₁ ++ spans₂)

namespace Brings

variable {R R₁ R₂ : State → State → List ScopeSpan → Prop} {a b : Recorded Unit}

/-- One step after another. -/
theorem seq (hchains : Chains held depth R₁ R₂ R) (ha : Brings held depth R₁ a)
    (hb : Brings held depth R₂ b) : Brings held depth R (a >>= fun _ ↦ b) where
  run hst hrun := by
    obtain ⟨_, st₁, hrun₁, hrun₂⟩ := exists_of_run_bind hrun
    obtain ⟨hst₁, h₁⟩ := ha.run hst hrun₁
    obtain ⟨hst₂, h₂⟩ := hb.run hst₁ hrun₂
    rw [Recorded.closed_bind hrun₁]
    exact ⟨hst₂, hchains hst hst₁ h₁ h₂⟩

/-- A statement is emitted. -/
theorem statement (h : ∀ {st st' : State} {u : Unit}, emitStatement s st = .ok u st' → R st st' []) :
    Brings held depth R (Recorded.lift (emitStatement s)) where
  run hst hrun := ⟨hst.emitted hrun, h hrun⟩

/-- Nothing is done. -/
theorem nothing (h : ∀ st, R st st []) : Brings held depth R (Pure.pure ()) where
  run hst hrun := by
    cases hrun
    exact ⟨hst, h _⟩

/-- A statement is emitted where control can be. -/
theorem ifReachable (h : ∀ st, R st st [])
    (hs : ∀ {st st' : State} {u : Unit}, emitStatement s st = .ok u st' → R st st' []) :
    Brings held depth R (Recorded.lift (ifReachable (emitStatement s))) where
  run hst hrun := by
    rcases ifReachable_ok hrun with hrun | ⟨-, rfl⟩
    · exact ⟨hst.emitted hrun, hs hrun⟩
    · exact ⟨hst, h _⟩

/-- A protected construct brings about what its parts do, with the statements around them. Its last label is
told apart from these. -/
theorem protectedSteps {c f : Option String} {e : String} {body handler cleanup : Recorded Unit}
    (hnothing : ∀ st, R₁ st st []) (hchains : Chains held depth R₁ R₁ R₁) (hlast : Chains held depth R₁ R R)
    (henter : Brings held depth R₁
      (Recorded.lift (emit .enterTry [optionalLabel c, optionalLabel f, .label e])))
    (hjump : ∀ {st st' : State} {u : Unit}, emitJump e st = .ok u st' → R₁ st st' [])
    (hlabel : ∀ l, Brings held depth R₁ (Recorded.lift (emitLabel l)))
    (hfinish : Brings held depth R₁ (Recorded.lift (emit .endFinally [])))
    (hend : Brings held depth R (Recorded.lift (emitLabel e))) (hbody : Brings held depth R₁ body)
    (hhandler : Brings held depth R₁ handler) (hcleanup : Brings held depth R₁ cleanup) :
    Brings held depth R (protectedSteps c f e body handler cleanup) := by
  have hcatch : Brings held depth R₁ (handlerSteps c handler) := by
    cases c with
    | none => exact .nothing hnothing
    | some l => exact .seq hchains (hlabel l) hhandler
  have hfinally : Brings held depth R₁ (cleanupSteps f cleanup) := by
    cases f with
    | none => exact .nothing hnothing
    | some l => exact .seq hchains (hlabel l) (.seq hchains hcleanup hfinish)
  exact .seq hlast henter <| .seq hlast hbody <| .seq hlast (.ifReachable hnothing hjump) <|
    .seq hlast hcatch <| .seq hlast hfinally hend

end Brings

end Lowering

end MethodCompiler
