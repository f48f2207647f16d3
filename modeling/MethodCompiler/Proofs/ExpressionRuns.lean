import MethodCompiler.Proofs.ExpressionSteps

/-!
# Runs of expression code

What a run of expression code does follows from the steps that it is built from. It takes registers and
emits statements that neither throw nor open a region, and that touch only the registers that it may touch.
They are laid out by constructs, and sound if the code before them is. It leaves the scopes as they are.
-/

namespace MethodCompiler

/-- Opcodes of statements that neither throw nor open a region. -/
def Opcode.isCalm : Opcode → Bool
  | throw | rethrow | enterTry => false
  | _ => true

namespace Lowering

namespace State

/-- What is in use. -/
def stock (st : State) : Stock := ⟨st.nextRegister, st.constants⟩

/-- What names stand for is within the registers of `own`, and so is every register that can still be
taken. -/
structure Provides (st : State) (k : Setting) (own : Nat → Prop) : Prop where
  bound : ∀ name, Bound k own st.stock (binding? st.scopes name)
  fresh : ∀ r, st.nextRegister ≤ r → own r

end State

/-- What a run of expression code has done. -/
structure Ran (k : Setting) (own : Nat → Prop) (near defs : List String) (st st' : State)
    (part : List Statement) : Prop
    extends Appends st st' part where
  registers : st.nextRegister ≤ st'.nextRegister
  names : st'.registerNames = st.registerNames
  scopes : st'.scopes = st.scopes
  statements : ∀ s ∈ part, s.op.isCalm = true ∧ s.Owned own st'.nextRegister
  laid : ∀ {sealed : Bool} {targets : List String} {pool : List Value}, (∀ l ∈ near, l ∈ targets) →
    st'.constants <+: pool → Laid sealed pool targets near st.nextConstruct st'.nextConstruct defs part
  sound : k.labelFree = true → SoundCode st.bare st.constants → SoundCode st'.bare st'.constants

variable {α : Type} {k : Setting} {own : Nat → Prop} {near defs defs' : List String} {w : Stock}
  {P : Stock → α → α → Prop} {act act' : Lower α} {st st₁ st₂ st' : State} {part part₁ part₂ : List Statement}
  {s : Statement} {u : Unit}

private theorem Bound.mono {w' : Stock} {b : Option Binding} (h : Bound k own w b) (hle : w.Within w') :
    Bound k own w' b := by
  cases b with
  | none => exact trivial
  | some b =>
    cases b with
    | register r ty => exact ⟨h.1, Nat.lt_of_lt_of_le h.2 hle.registers⟩
    | constant v => exact h

namespace Ran

/-- What is in use stays in use. -/
theorem within (h : Ran k own near defs st st' part) : st.stock.Within st'.stock :=
  ⟨h.registers, h.constants⟩

/-- The registers stay provided. -/
theorem provides (h : Ran k own near defs st st' part) (hst : st.Provides k own) : st'.Provides k own where
  bound name := by
    rw [h.scopes]
    exact (hst.bound name).mono h.within
  fresh r hr := hst.fresh r (Nat.le_trans h.registers hr)

/-- One run after another. -/
theorem trans (h₁ : Ran k own near defs st st₁ part₁) (h₂ : Ran k own near defs' st₁ st₂ part₂) :
    Ran k own near (defs ++ defs') st st₂ (part₁ ++ part₂) where
  toAppends := h₁.toAppends.trans h₂.toAppends
  registers := Nat.le_trans h₁.registers h₂.registers
  names := h₂.names.trans h₁.names
  scopes := h₂.scopes.trans h₁.scopes
  statements := List.forall_mem_append.mpr
    ⟨fun s hs ↦ (h₁.statements s hs).imp_right (·.mono h₂.registers), h₂.statements⟩
  laid hnear hpool := (h₁.laid hnear (h₂.constants.trans hpool)).append (h₂.laid hnear hpool)
  sound hfree h := h₂.sound hfree (h₁.sound hfree h)

private theorem quiet (hbare : st'.bare = st.bare) (hconstants : st'.constants = st.constants)
    (hregisters : st.nextRegister ≤ st'.nextRegister) (hnames : st'.registerNames = st.registerNames)
    (hscopes : st'.scopes = st.scopes) (hnext : st'.nextConstruct = st.nextConstruct) :
    Ran k own near [] st st' [] where
  code := by rw [hbare, List.append_nil]
  constants := hconstants ▸ List.prefix_rfl
  registers := hregisters
  names := hnames
  scopes := hscopes
  statements := List.forall_mem_nil _
  laid _ _ := by
    rw [hnext]
    exact .nil
  sound _ h := by
    rw [hbare, hconstants]
    exact h

private theorem refl (st : State) : Ran k own near [] st st [] := .quiet rfl rfl (Nat.le_refl _) rfl rfl rfl

private theorem emitted (hrun : emitStatement s st = .ok u st') (hop : s.op.isCalm = true)
    (howned : s.bare.Owned own st.nextRegister)
    (hlaid : ∀ {sealed : Bool} {targets : List String} {pool : List Value} {n : Nat},
      (∀ l ∈ near, l ∈ targets) → st.constants <+: pool →
      Laid sealed pool targets near n n defs [s.bare])
    (hsound : k.labelFree = true → s.bare.Sound st.constants) : Ran k own near defs st st' [s.bare] := by
  cases hrun
  exact {
    code := bare_push st s
    constants := List.prefix_rfl
    registers := Nat.le_refl _
    names := rfl
    scopes := rfl
    statements := List.forall_mem_singleton.mpr ⟨hop, howned⟩
    laid := fun hnear hpool ↦ hlaid hnear hpool
    sound := fun hfree h ↦ bare_push st s ▸ h.append (List.forall_mem_singleton.mpr (hsound hfree)) }

private theorem added {v : Value} {i : Nat} {constants : List Value} (hadd : Added v st i constants)
    (hv : v.hasLabel = false) : Ran k own near [] st { st with constants } [] where
  code := (List.append_nil _).symm
  constants := hadd.kept
  registers := Nat.le_refl _
  names := rfl
  scopes := rfl
  statements := List.forall_mem_nil _
  laid _ _ := .nil
  sound _ := hadd.soundCode hv

end Ran

private theorem isOrdinary_of_isStraight {op : Opcode} (h : op.isStraight = true) :
    op.isOrdinary = true ∧ op.isPlain = true ∧ op.isCalm = true := by
  cases op <;> first | exact ⟨rfl, rfl, rfl⟩ | cases h

private theorem output_of_isBranch {op : Opcode} (h : op.isBranch = true) :
    op.isCalm = true ∧ op.output = .none := by
  cases op <;> first | exact ⟨rfl, rfl⟩ | cases h

private theorem forall_of_allFit {as as' : List Operand} (h : Operand.AllFit k own w as as') :
    (k.labelFree = true → ∀ a ∈ as', a.Sound w.constants.length) ∧ ∀ a ∈ as', a.Owned own w.registers := by
  refine ⟨fun hfree a ha ↦ ?_, fun a ha ↦ ?_⟩
  · obtain ⟨b, -, hb⟩ := exists_mem_of_forall₂ h ha
    exact hb.sound hfree
  · obtain ⟨b, -, hb⟩ := exists_mem_of_forall₂ h ha
    exact hb.owned

/-- A run that loads a literal gives an operand that fits. -/
private theorem exists_ran_loadConstant {v : Value} {a' : Operand} (hv : v.isAggregate = true)
    (hlabel : v.hasLabel = false) (hrun : loadConstant k.second v st = .ok a' st') :
    (∃ a : Operand, a.Fits k own st'.stock a') ∧ ∃ part, Ran k own near [] st st' part := by
  cases hplace : k.loading.second with
  | true =>
    rw [loadConstant_inPlace hplace] at hrun
    cases hrun
    exact ⟨⟨_, .immediate fun _ ↦ hlabel⟩, [], .refl _⟩
  | false =>
    have hplace : k.second.inPlace = false := hplace
    obtain ⟨i, constants, hadd, hload⟩ := exists_loadConstant hplace v st
    rw [hload st rfl] at hrun
    cases hrun
    obtain ⟨u, hu, hentry⟩ := hadd.entry
    have hsound : (Operand.constant i).Sound constants.length := (List.getElem?_eq_some_iff.mp hu).1
    have howned {n : Nat} : (Operand.constant i).Owned own n := Operand.owned_of_register? rfl
    refine ⟨?_, [], .added hadd hlabel⟩
    by_cases hmixed : k.loading = .mixed
    · exact ⟨.immediate v, .entry hmixed hv hu (hentry.imp_right (·.2)), fun _ ↦ hsound, howned⟩
    · exact ⟨.constant i, .same fun h ↦ absurd h hmixed, fun _ ↦ hsound, howned⟩

/-- A run that switches through a jump table. -/
private theorem exists_ran_switch {v : Value} {a' : Operand} (hsecond : k.loading.second = false)
    (hv : v.IsJumpTable) (hnear : ∀ l ∈ FlowGraph.tableTargets v, l ∈ near)
    (hsound : k.labelFree = true → a'.Sound st.constants.length) (howned : a'.Owned own st.nextRegister)
    (hrun : (loadConstant k.second v >>= fun t ↦ emit .switch [a', t]) st = .ok u st') :
    ∃ part, Ran k own near [] st st' part := by
  have hplace : k.second.inPlace = false := hsecond
  obtain ⟨i, constants, hadd, hload⟩ := exists_loadConstant hplace v st
  rw [run_bind (hload st rfl)] at hrun
  cases hrun
  refine ⟨[.of .switch [a', .constant i]], ⟨bare_push _ _, hadd.kept⟩, Nat.le_refl _, rfl, rfl,
    List.forall_mem_singleton.mpr ⟨rfl, ?_⟩, ?_, ?_⟩
  · refine Statement.owned_of_operands (by rintro ⟨⟩) (List.forall_mem_cons.mpr ⟨howned, ?_⟩)
    exact List.forall_mem_singleton.mpr (Operand.owned_of_register? rfl)
  · intro sealed targets pool _ hpool
    refine .switch rfl fun l hl ↦ hnear l ?_
    obtain ⟨u, hu, htargets⟩ := hadd.tableTargets
    have hentry : pool[i]? = some u := by
      obtain ⟨rest, rfl⟩ := hpool
      exact (List.getElem?_append_left (List.getElem?_eq_some_iff.mp hu).1).trans hu
    rw [Statement.switchTargets_of_table? rfl hentry, htargets] at hl
    exact hl
  · intro hfree h
    rw [bare_push]
    exact hadd.soundCode_switch hv ((hsound hfree).mono hadd.kept.length_le) h

/-- Expression code that is given registers touches no others, is laid out and sound. -/
theorem Built.ran (h : Built k own near defs w P act act') {a' : α} (hw : w.Within st.stock)
    (hst : st.Provides k own) (hrun : act' st = .ok a' st') :
    (∃ a, P st'.stock a a') ∧ ∃ part, Ran k own near defs st st' part := by
  induction h generalizing st st' with
  | @pure _ _ _ P a a' hP =>
    cases hrun
    exact ⟨⟨a, hP _ hw⟩, [], .refl _⟩
  | fail e => cases hrun
  | bind _ _ ih ihf =>
    obtain ⟨a', st₁, hact, hrun⟩ := exists_of_run_bind hrun
    obtain ⟨⟨a, hP⟩, part₁, h₁⟩ := ih hw hst hact
    obtain ⟨hQ, part₂, h₂⟩ := ihf st₁.stock a a' (hw.trans h₁.within) hP (.refl _) (h₁.provides hst) hrun
    exact ⟨hQ, part₁ ++ part₂, h₁.trans h₂⟩
  | @construct _ _ w _ _ _ kind parts hparts _ ih =>
    obtain ⟨n, st₁, hnew, hrun⟩ := exists_of_run_bind hrun
    cases hnew
    have hnumbered : State.Provides { st with nextConstruct := st.nextConstruct + 1 } k own :=
      ⟨hst.bound, hst.fresh⟩
    have hw' : w.Within (State.stock { st with nextConstruct := st.nextConstruct + 1 }) := hw
    obtain ⟨hQ, part, hran⟩ := ih st.nextConstruct hw' hnumbered hrun
    refine ⟨hQ, part, { hran with
      code := hran.code
      constants := hran.constants
      laid := fun hnear hpool ↦ ?_ }⟩
    refine .construct (hparts.constructLabels st.nextConstruct) (.refl _) (hran.laid ?_ hpool)
    exact fun l hl ↦ List.mem_append.mpr ((List.mem_append.mp hl).imp_right (hnear l))
  | register ty =>
    cases hrun
    exact ⟨⟨_, rfl, hst.fresh _ (Nat.le_refl _), Nat.lt_succ_self _⟩, [],
      .quiet rfl rfl (Nat.le_succ _) rfl rfl rfl⟩
  | literal hv hlabel => exact exists_ran_loadConstant hv hlabel hrun
  | function hallowed =>
    cases hrun
    exact ⟨⟨_, rfl, trivial⟩, [], .quiet rfl rfl (Nat.le_refl _) rfl rfl rfl⟩
  | lookup name =>
    cases hrun
    exact ⟨⟨_, rfl, hst.bound name⟩, [], .refl _⟩
  | @clobbered _ _ _ v _ _ =>
    have hkept : st' = st := by
      unfold Lowering.clobbered at hrun
      cases v <;> (cases hrun; rfl)
    subst hkept
    exact ⟨⟨_, rfl, trivial⟩, [], .refl _⟩
  | straight hop hout has =>
    obtain ⟨hordinary, hplain, hcalm⟩ := isOrdinary_of_isStraight hop
    obtain ⟨hsound, howned⟩ := forall_of_allFit has
    refine ⟨⟨_, rfl, trivial⟩, _, .emitted hrun hcalm ?_ (fun _ _ ↦ .statement hordinary) ?_⟩
    · exact Statement.owned_of_operands hout fun a ha ↦ (howned a ha).mono hw.registers
    · exact fun hfree ↦ Statement.sound_of_isPlain hplain (.inl rfl) (hsound hfree) hw.constants.length_le
  | @rebind _ _ dst _ _ hdst ha =>
    have htarget : (rebindTarget dst).Sound 0 := by
      cases dst with
      | register => exact rfl
      | input | field => exact trivial
      | _ => exact hdst.elim
    refine ⟨⟨_, rfl, trivial⟩, _, .emitted hrun rfl ?_ (fun _ _ ↦ .statement rfl) ?_⟩
    · exact (Statement.owned_reref hdst ha.owned).mono hw.registers
    · refine fun hfree ↦ Statement.sound_of_isPlain rfl (.inl rfl) ?_ (Nat.le_refl _)
      exact List.forall_mem_cons.mpr ⟨htarget.mono (Nat.zero_le _),
        List.forall_mem_singleton.mpr ((ha.sound hfree).mono hw.constants.length_le)⟩
  | @branch _ _ op _ as' l hop has hl =>
    obtain ⟨hcalm, hout⟩ := output_of_isBranch hop
    obtain ⟨hsound, howned⟩ := forall_of_allFit has
    have htarget : (Statement.of op (as' ++ [Operand.label l])).bare.target? = some l := by
      simp [Statement.target?, Statement.bare, Statement.of, hop, Operand.label?]
    refine ⟨⟨_, rfl, trivial⟩, _, .emitted hrun hcalm ?_ ?_ ?_⟩
    · refine Statement.owned_of_operands (hout.trans_ne (by decide)) (List.forall_mem_append.mpr ⟨?_, ?_⟩)
      · exact fun a ha ↦ (howned a ha).mono hw.registers
      · exact List.forall_mem_singleton.mpr (Operand.owned_of_register? rfl)
    · exact fun hnear _ ↦ .branch hop htarget (hnear l hl) fun _ ↦ hl
    · exact fun hfree ↦ Statement.sound_of_isBranch hop fun a ha ↦
        (hsound hfree a ha).mono hw.constants.length_le
  | switch hsecond hv hnear ha =>
    exact ⟨⟨_, rfl, trivial⟩, exists_ran_switch hsecond hv hnear
      (fun hfree ↦ (ha.sound hfree).mono hw.constants.length_le) (ha.owned.mono hw.registers) hrun⟩
  | label l =>
    refine ⟨⟨_, rfl, trivial⟩, _, .emitted hrun rfl ?_ (fun _ _ ↦ .label) fun _ ↦ Statement.sound_label l⟩
    exact Statement.owned_of_operands (by rintro ⟨⟩)
      (List.forall_mem_singleton.mpr (Operand.owned_of_register? rfl))

end Lowering

end MethodCompiler
