import MethodCompiler.Proofs.Evaluation
import MethodCompiler.Proofs.Success

/-!
# Stores that hold the variables

While code runs, every variable has a cell that holds its value: a local the register that it is bound
to, a parameter its input slot, a field itself. Emitting code is described by what the emitted part
does to a store that holds an environment: `Does` says that a step of emitting code succeeds, and that
the part takes each such store to one that holds the environment after it.
-/

namespace MethodCompiler.Lowering

variable {V α β : Type}

/-! ### Steps of emitting code -/

/-- A state that a step of emitting code leads to. Only code, registers, numbers and functions are
new. -/
structure Later (st st' : State) : Prop where
  scopes : st'.scopes = st.scopes
  names : st'.registerNames = st.registerNames
  registers : st.nextRegister ≤ st'.nextRegister

private theorem Later.refl (st : State) : Later st st := ⟨rfl, rfl, Nat.le_refl _⟩

/-- A state after a later one is later. -/
theorem Later.trans {st₁ st₂ st₃ : State} (h₁ : Later st₁ st₂) (h₂ : Later st₂ st₃) :
    Later st₁ st₃ :=
  ⟨h₂.scopes.trans h₁.scopes, h₂.names.trans h₁.names, Nat.le_trans h₁.registers h₂.registers⟩

/-- A step of emitting code has added some statements. -/
structure Adds (st st' : State) (part : List Statement) : Prop extends Later st st' where
  code : st'.code.toList = st.code.toList ++ part

/-- Two steps add their statements one after the other. -/
theorem Adds.trans {st₁ st₂ st₃ : State} {a b : List Statement} (h₁ : Adds st₁ st₂ a)
    (h₂ : Adds st₂ st₃ b) : Adds st₁ st₃ (a ++ b) :=
  ⟨h₁.toLater.trans h₂.toLater, by rw [h₂.code, h₁.code, List.append_assoc]⟩

/-- A step of emitting code has added some statements, and control can run past the last one. -/
structure Extends (st st' : State) (part : List Statement) : Prop extends Adds st st' part where
  falls : ¬Closed part

/-- Doing nothing adds no statements. -/
theorem Extends.refl (st : State) : Extends st st [] :=
  ⟨⟨.refl st, (List.append_nil _).symm⟩, not_closed_nil⟩

/-- Control can run past two parts if it can run past each. -/
theorem Extends.trans {st₁ st₂ st₃ : State} {a b : List Statement} (h₁ : Extends st₁ st₂ a)
    (h₂ : Extends st₂ st₃ b) : Extends st₁ st₃ (a ++ b) :=
  ⟨h₁.toAdds.trans h₂.toAdds, not_closed_append h₁.falls h₂.falls⟩

/-- Whether control can run past the last statement is for the last part to say. -/
theorem Adds.andThen {st₁ st₂ st₃ : State} {a b : List Statement} (h₁ : Adds st₁ st₂ a)
    (h₂ : Extends st₂ st₃ b) (hb : b ≠ []) : Extends st₁ st₃ (a ++ b) := by
  refine ⟨h₁.trans h₂.toAdds, ?_⟩
  obtain ⟨s, hs⟩ := Option.ne_none_iff_exists'.mp (mt List.getLast?_eq_none_iff.mp hb)
  have hfalls := h₂.falls
  rw [Closed, hs] at hfalls
  rw [Closed, List.getLast?_append, hs]
  exact hfalls

/-- Emitting adds one statement. -/
theorem adds_emit (op : Opcode) (operands : List Operand) (st : State) :
    ∃ st', emit op operands st = .ok () st' ∧ Adds st st' [.of op operands] :=
  ⟨_, rfl, ⟨rfl, rfl, Nat.le_refl _⟩, by simp⟩

/-- Control can run past a statement that is no exit. -/
theorem extends_emit (op : Opcode) (operands : List Operand) (st : State)
    (h : op.isUnconditionalExit = false) :
    ∃ st', emit op operands st = .ok () st' ∧ Extends st st' [.of op operands] := by
  obtain ⟨st', hrun, hadds⟩ := adds_emit op operands st
  exact ⟨st', hrun, hadds, not_closed_concat (a := []) h⟩

/-- A label is one statement, and control can run past it. -/
theorem extends_emitLabel (l : String) (st : State) :
    ∃ st', emitLabel l st = .ok () st' ∧ Extends st st' [.label l] :=
  extends_emit .label _ st rfl

/-- A jump is one statement. -/
theorem adds_emitJump (target : String) (st : State) :
    ∃ st', emitJump target st = .ok () st' ∧ Adds st st' [.jump target] := adds_emit .jump _ st

/-- A new register is the next one that is not in use. -/
theorem extends_newRegister (ty : Ty) (st : State) :
    ∃ st', newRegister ty st = .ok (.register st.nextRegister ty) st' ∧ Extends st st' [] ∧
      st.nextRegister < st'.nextRegister :=
  ⟨_, rfl, ⟨⟨⟨rfl, rfl, Nat.le_succ _⟩, by simp⟩, not_closed_nil⟩, Nat.lt_succ_self _⟩

/-- A construct takes the next number. -/
theorem extends_newConstruct (st : State) :
    ∃ st', newConstruct st = .ok st.nextConstruct st' ∧ Extends st st' [] :=
  ⟨_, rfl, ⟨⟨rfl, rfl, Nat.le_refl _⟩, by simp⟩, not_closed_nil⟩

/-- Declaring a function emits nothing. -/
theorem extends_declareFunction (index : UInt32) (f : FunctionDecl) (st : State) :
    ∃ st', declareFunction index f st = .ok () st' ∧ Extends st st' [] :=
  ⟨_, rfl, ⟨⟨rfl, rfl, Nat.le_refl _⟩, by simp⟩, not_closed_nil⟩

/-! ### Cells of variables -/

/-- The cell of a variable; a constant has none. -/
def cellOf (ctx : Context) (scopes : List Scope) : Variable → Option Cell
  | .localVar name =>
    match binding? scopes name with
    | some (.register r _) => some (.register r)
    | _ => none
  | .parameter i => some (.input (ctx.method.inputSlot i))
  | .field i => some (.field i)

/-- Locals are bound to registers in use, each to one of its own that is recorded with a name. -/
structure WellScoped (st : State) : Prop where
  below : ∀ {name r ty}, binding? st.scopes name = some (.register r ty) → r < st.nextRegister
  named : ∀ {name r ty}, binding? st.scopes name = some (.register r ty) →
    st.registerNames.any (·.1 == r) = true
  distinct : ∀ {name name' r ty ty'}, binding? st.scopes name = some (.register r ty) →
    binding? st.scopes name' = some (.register r ty') → name = name'

/-- Scopes stay in order. -/
theorem WellScoped.later {st st' : State} (h : WellScoped st) (hl : Later st st') :
    WellScoped st' where
  below hb := Nat.lt_of_lt_of_le (h.below (hl.scopes ▸ hb)) hl.registers
  named hb := by
    rw [hl.names]
    exact h.named (hl.scopes ▸ hb)
  distinct hb hb' := h.distinct (hl.scopes ▸ hb) (hl.scopes ▸ hb')

section Cells

variable {ctx : Context} {scopes : List Scope} {st : State} {x y : Variable} {c : Cell} {r : Nat}

/-- Only a local has a register as its cell. -/
theorem cellOf_eq_register (h : cellOf ctx scopes x = some (.register r)) :
    ∃ name ty, x = .localVar name ∧ binding? scopes name = some (.register r ty) := by
  cases x with
  | localVar name =>
    rw [cellOf] at h
    split at h
    · next r' ty hb =>
      cases h
      exact ⟨name, ty, rfl, hb⟩
    · cases h
  | parameter i | field i => cases h

/-- Only a parameter has an input slot as its cell. -/
theorem cellOf_eq_input {slot : UInt32} (h : cellOf ctx scopes x = some (.input slot)) :
    ∃ i, x = .parameter i ∧ ctx.method.inputSlot i = slot := by
  cases x with
  | localVar name =>
    rw [cellOf] at h
    split at h <;> cases h
  | parameter i =>
    cases h
    exact ⟨i, rfl, rfl⟩
  | field i => cases h

/-- Only a field has a field as its cell. -/
theorem cellOf_eq_field {i : UInt32} (h : cellOf ctx scopes x = some (.field i)) :
    x = .field i := by
  cases x with
  | localVar name =>
    rw [cellOf] at h
    split at h <;> cases h
  | parameter i => cases h
  | field i =>
    cases h
    rfl

private theorem inputSlot_injective (m : Method) : Function.Injective m.inputSlot := by
  intro i j h
  unfold Method.inputSlot at h
  split at h
  · exact h
  · exact (UInt32.add_left_inj 1).mp h

/-- Every input slot belongs to some parameter number. -/
theorem exists_inputSlot (m : Method) (slot : UInt32) : ∃ i, m.inputSlot i = slot := by
  unfold Method.inputSlot
  split
  · exact ⟨slot, rfl⟩
  · exact ⟨slot - 1, UInt32.sub_add_cancel slot 1⟩

/-- No two variables share a cell. -/
theorem WellScoped.cellOf_injective (h : WellScoped st) (hx : cellOf ctx st.scopes x = some c)
    (hy : cellOf ctx st.scopes y = some c) : x = y := by
  cases c with
  | register r =>
    obtain ⟨name, _, rfl, hb⟩ := cellOf_eq_register hx
    obtain ⟨name', _, rfl, hb'⟩ := cellOf_eq_register hy
    rw [h.distinct hb hb']
  | input slot =>
    obtain ⟨i, rfl, hi⟩ := cellOf_eq_input hx
    obtain ⟨j, rfl, hj⟩ := cellOf_eq_input hy
    rw [inputSlot_injective ctx.method (hi.trans hj.symm)]
  | field i => rw [cellOf_eq_field hx, cellOf_eq_field hy]

end Cells

/-! ### Stores and environments -/

/-- A store holds an environment, except that one cell may have been overwritten. -/
structure Holds (M : Machine V) (ctx : Context) (scopes : List Scope) (except : Option Cell)
    (σ : Store V) (env : Env V) : Prop where
  cells : ∀ {x c}, cellOf ctx scopes x = some c → except ≠ some c → σ.cells c = env.vars x
  constants : ∀ {name v}, binding? scopes name = some (.constant v) →
    env.vars (.localVar name) = M.immediate v
  calls : σ.calls = env.calls
  arguments : σ.arguments = []

/-- The cell that a caller asks a value to be put in. -/
def intoCell (into : Option Operand) : Option Cell := into.bind Operand.cell?

/-- Registers in use keep their contents, besides those of variables and the one asked for. -/
def Keeps (ctx : Context) (st : State) (into : Option Operand) (σ τ : Store V) : Prop :=
  ∀ r, r < st.nextRegister → (∀ x, cellOf ctx st.scopes x ≠ some (.register r)) →
    intoCell into ≠ some (.register r) → τ.cells (.register r) = σ.cells (.register r)

/-- What a step to a later store guarantees, whatever it computes. -/
structure Follows (M : Machine V) (ctx : Context) (st : State) (into : Option Operand)
    (σ τ : Store V) (env : Env V) : Prop where
  holds : Holds M ctx st.scopes (intoCell into) τ env
  keeps : Keeps ctx st into σ τ

/-- The operand can be read as it is: its register is in use, and it holds a value. -/
def Usable (st : State) : Operand → Prop
  | .register r ty => r < st.nextRegister ∧ ty.isReference = false
  | .input _ ty | .field _ ty => ty.isReference = false
  | .immediate _ => True
  | _ => False

/-- What can be read can be read later. -/
theorem Usable.later {st st' : State} {v : Operand} (h : Usable st v) (hl : Later st st') :
    Usable st' v := by
  cases v with
  | register r ty => exact ⟨Nat.lt_of_lt_of_le h.1 hl.registers, h.2⟩
  | input _ _ | field _ _ | immediate _ => exact h
  | constant _ | this _ | exception | label _ => exact h.elim

/-- A place that a caller can ask for: a register in use, of the type of the local that is bound to it
if there is one. -/
def Destination (st : State) (into : Option Operand) : Prop :=
  ∀ d, into = some d → ∃ r ty, d = .register r ty ∧ r < st.nextRegister ∧ ty.isReference = false ∧
    ∀ {name ty'}, binding? st.scopes name = some (.register r ty') → ty' = ty

/-- A place that can be asked for can be asked for later. -/
theorem Destination.later {st st' : State} {into : Option Operand} (h : Destination st into)
    (hl : Later st st') : Destination st' into := by
  intro d hd
  obtain ⟨r, ty, rfl, hr, href, hb⟩ := h d hd
  exact ⟨r, ty, rfl, Nat.lt_of_lt_of_le hr hl.registers, href, fun h ↦ hb (hl.scopes ▸ h)⟩

/-- A step of emitting code succeeds; the part that it emits takes a store that holds an environment to
another one that holds the environment after it, and `R` relates the four. -/
def Does (M : Machine V) (ctx : Context) (st : State) (into : Option Operand) (act : Lower α)
    (Q : State → α → Prop) (R : α → Store V → Env V → Store V → Env V → Prop) : Prop :=
  WellScoped st → ∃ a st' part, act st = .ok a st' ∧ Extends st st' part ∧ Q st' a ∧
    ∀ σ env, Holds M ctx st.scopes none σ env →
      ∃ τ env', M.Executes part σ τ ∧ Follows M ctx st into σ τ env' ∧ R a σ env τ env'

/-- A step of emitting code succeeds; the part that it emits goes to a label, or to its end, as an
environment decides. Control can run past the part if there is an environment for which it does. -/
def Decides (M : Machine V) (ctx : Context) (st : State) (act : Lower Unit) (target : String)
    (f : Env V → Bool × Env V) : Prop :=
  WellScoped st → ∃ st' part, act st = .ok () st' ∧ Adds st st' part ∧
    (∀ env, (f env).1 = false → ¬Closed part) ∧ ∀ σ env, Holds M ctx st.scopes none σ env →
      ∃ τ, M.Branches part target (f env).1 σ τ ∧ Follows M ctx st none σ τ (f env).2

section Rules

variable {M : Machine V} {ctx : Context} {st st' : State} {into : Option Operand}
  {act : Lower α} {Q : State → α → Prop} {R : α → Store V → Env V → Store V → Env V → Prop}
  {σ τ ρ : Store V} {env env' : Env V}

private theorem Keeps.refl (σ : Store V) : Keeps ctx st into σ σ := fun _ _ _ _ ↦ rfl

private theorem Keeps.trans (h₁ : Keeps ctx st none σ τ) (hl : Later st st')
    (h₂ : Keeps ctx st' into τ ρ) : Keeps ctx st into σ ρ := by
  intro r hr hx hinto
  rw [h₂ r (Nat.lt_of_lt_of_le hr hl.registers) (by rwa [hl.scopes]) hinto,
    h₁ r hr hx (by simp [intoCell])]

/-- A store follows on itself. -/
theorem Follows.refl (h : Holds M ctx st.scopes none σ env) : Follows M ctx st none σ σ env :=
  ⟨h, .refl σ⟩

/-- What two steps guarantee, they guarantee one after the other. -/
theorem Follows.trans (h₁ : Follows M ctx st none σ τ env) (hl : Later st st')
    (h₂ : Follows M ctx st' into τ ρ env') : Follows M ctx st into σ ρ env' :=
  ⟨hl.scopes ▸ h₂.holds, h₁.keeps.trans hl h₂.keeps⟩

/-- A step that emits nothing. -/
theorem Does.pure {a : α} (hQ : WellScoped st → Q st a)
    (hR : ∀ σ env, Holds M ctx st.scopes none σ env → R a σ env σ env) :
    Does M ctx st none (Pure.pure a) Q R := fun hw ↦
  ⟨a, st, [], rfl, .refl st, hQ hw, fun σ env hh ↦ ⟨σ, env, .nil σ, .refl hh, hR σ env hh⟩⟩

/-- Scopes may be assumed to be in order. -/
theorem Does.assume (h : WellScoped st → Does M ctx st into act Q R) :
    Does M ctx st into act Q R := fun hw ↦ h hw hw

/-- A step that runs like another one does what the other does. -/
theorem Does.congr (act' : Lower α) (he : act st = act' st) (h : Does M ctx st into act' Q R) :
    Does M ctx st into act Q R := by
  unfold Does at *
  rwa [he]

/-- A step that emits nothing comes first. -/
theorem Does.skip {act' : Lower α} (hext : Extends st st' []) (he : act st = act' st')
    (h : Does M ctx st' into act' Q R) : Does M ctx st into act Q R := by
  intro hw
  obtain ⟨a, st₁, part, hrun, hext₁, hq, heff⟩ := h (hw.later hext.toLater)
  refine ⟨a, st₁, part, he.trans hrun, hext.trans hext₁, hq, ?_⟩
  intro σ env hh
  obtain ⟨τ, env', hex, hfol, hr⟩ := heff σ env (hext.scopes ▸ hh)
  exact ⟨τ, env', hex, (Follows.refl hh).trans hext.toLater hfol, hr⟩

/-- Conclude something else from what a step does. -/
theorem Does.mono {Q' : State → α → Prop}
    {R' : α → Store V → Env V → Store V → Env V → Prop} (h : Does M ctx st into act Q R)
    (hQ : ∀ a st', Later st st' → Q st' a → Q' st' a)
    (hR : ∀ a st', Q st' a → ∀ σ env τ env', Holds M ctx st.scopes none σ env →
      Follows M ctx st into σ τ env' → R a σ env τ env' → R' a σ env τ env') :
    Does M ctx st into act Q' R' := by
  intro hw
  obtain ⟨a, st', part, hrun, hext, hq, heff⟩ := h hw
  refine ⟨a, st', part, hrun, hext, hQ a st' hext.toLater hq, ?_⟩
  intro σ env hh
  obtain ⟨τ, env', hex, hfol, hr⟩ := heff σ env hh
  exact ⟨τ, env', hex, hfol, hR a st' hq σ env τ env' hh hfol hr⟩

/-- Conclude something else about the stores. -/
theorem Does.conclude {R' : α → Store V → Env V → Store V → Env V → Prop}
    (h : Does M ctx st into act Q R)
    (hR : ∀ a st', Q st' a → ∀ σ env τ env', Holds M ctx st.scopes none σ env →
      Follows M ctx st into σ τ env' → R a σ env τ env' → R' a σ env τ env') :
    Does M ctx st into act Q R' := h.mono (fun _ _ _ hq ↦ hq) hR

/-- One step after another. The second has to conclude for all runs of the first. -/
theorem Does.bind {f : α → Lower β} {Q' : State → β → Prop}
    {R' : β → Store V → Env V → Store V → Env V → Prop}
    (h : Does M ctx st none act Q R)
    (hf : ∀ a st', Later st st' → Q st' a → Does M ctx st' into (f a) Q' fun b τ env' ρ env'' ↦
      ∀ σ env, Holds M ctx st.scopes none σ env → Follows M ctx st none σ τ env' →
        R a σ env τ env' → R' b σ env ρ env'') :
    Does M ctx st into (act >>= f) Q' R' := by
  intro hw
  obtain ⟨a, st₁, part₁, hrun₁, hext₁, hq₁, heff₁⟩ := h hw
  obtain ⟨b, st₂, part₂, hrun₂, hext₂, hq₂, heff₂⟩ :=
    hf a st₁ hext₁.toLater hq₁ (hw.later hext₁.toLater)
  refine ⟨b, st₂, part₁ ++ part₂, by rw [run_bind hrun₁, hrun₂], hext₁.trans hext₂, hq₂, ?_⟩
  intro σ env hh
  obtain ⟨τ, env', hex₁, hfol₁, hr₁⟩ := heff₁ σ env hh
  obtain ⟨ρ, env'', hex₂, hfol₂, hr₂⟩ := heff₂ τ env' (hext₁.scopes ▸ hfol₁.holds)
  exact ⟨ρ, env'', hex₁.append hex₂, hfol₁.trans hext₁.toLater hfol₂,
    hr₂ σ env hh hfol₁ hr₁⟩

/-- A branch after a step. -/
theorem Decides.after {f : α → Lower Unit} {target : String} {h : Env V → Bool × Env V}
    (ha : Does M ctx st none act Q R)
    (hf : ∀ a st', Later st st' → Q st' a → WellScoped st' → ∃ st'' part,
      f a st' = .ok () st'' ∧ Extends st' st'' part ∧
      ∀ σ env τ env', Follows M ctx st none σ τ env' → R a σ env τ env' →
        M.Branches part target (h env).1 τ τ ∧ env' = (h env).2) :
    Decides M ctx st (act >>= f) target h := by
  intro hw
  obtain ⟨a, st₁, part₁, hrun₁, hext₁, hq₁, heff₁⟩ := ha hw
  obtain ⟨st₂, part₂, hrun₂, hext₂, hbr⟩ := hf a st₁ hext₁.toLater hq₁ (hw.later hext₁.toLater)
  have hext := hext₁.trans hext₂
  refine ⟨st₂, part₁ ++ part₂, by rw [run_bind hrun₁, hrun₂], hext.toAdds, fun _ _ ↦ hext.falls, ?_⟩
  intro σ env hh
  obtain ⟨τ, env', hex₁, hfol₁, hr₁⟩ := heff₁ σ env hh
  obtain ⟨hb, rfl⟩ := hbr σ env τ env' hfol₁ hr₁
  exact ⟨τ, .after hex₁ hb, hfol₁⟩

end Rules

end MethodCompiler.Lowering
