import MethodCompiler.Proofs.AccessedRegisters
import MethodCompiler.Proofs.SoundCode
import MethodCompiler.Proofs.SourceTrees

/-!
# The steps of expression code

Running an expression takes a few kinds of steps and no others: registers, labels and constants are
taken, names are looked up, and statements are emitted that compute, call or branch. `Built` lists them,
with the registers that they may touch, the labels that they may go to and the operands that they may use.
It speaks of two runs side by side, since what comes of an expression in one setting is compared with what
comes of it in another: with the literals in the pool or in place, with comments or without. What each kind
of step keeps, the code of every expression keeps, by one induction over `Built`.
-/

namespace MethodCompiler

/-- Opcodes that take data as operands and after which control goes on. -/
def Opcode.isStraight (op : Opcode) : Bool := op.isPlain && !op.exitsBlock

/-! ### Two runs side by side -/

namespace Lowering

/-- Where two runs have arrays and tables: both in the pool, both in the statements, or the first in the
statements and the second in the pool. -/
inductive Loading where
  | pooled
  | inPlace
  | mixed
  deriving DecidableEq

/-- Whether the first run has them in the statements. -/
def Loading.first : Loading → Bool
  | pooled => false
  | inPlace | mixed => true

/-- Whether the second run has them in the statements. -/
def Loading.second : Loading → Bool
  | inPlace => true
  | pooled | mixed => false

/-- What is asked of protected statements: nothing, that each has a handler or a cleanup, or also that no
cleanup is left by a jump. -/
inductive Strictness where
  | loose
  | guarded
  | sealed
  deriving DecidableEq

/-- Two runs that emit the code of one method. They may differ in where literals stand and in the comments. -/
structure Setting where
  method : Method
  symbols : SymbolTable
  loading : Loading
  comments : Bool
  comments' : Bool
  /-- The functions that the runs may declare. -/
  allowed : UInt32 → String → Prop
  /-- No name in scope stands for a value with labels. -/
  labelFree : Bool := true
  strictness : Strictness := .loose

/-- The context of the first run. -/
def Setting.first (k : Setting) : Context :=
  { method := k.method, symbols := k.symbols, comments := k.comments, inPlace := k.loading.first }

/-- The context of the second run. -/
def Setting.second (k : Setting) : Context :=
  { method := k.method, symbols := k.symbols, comments := k.comments', inPlace := k.loading.second }

/-- How many registers are in use, and which constants there are. -/
structure Stock where
  registers : Nat
  constants : List Value

/-- There is more in use. -/
structure Stock.Within (w w' : Stock) : Prop where
  registers : w.registers ≤ w'.registers
  constants : w.constants <+: w'.constants

variable {w w' w₁ w₂ : Stock}

/-- A stock is within itself. -/
theorem Stock.Within.refl (w : Stock) : w.Within w := ⟨Nat.le_refl _, List.prefix_rfl⟩

/-- Stocks grow step by step. -/
theorem Stock.Within.trans (h₁ : w.Within w₁) (h₂ : w₁.Within w₂) : w.Within w₂ :=
  ⟨Nat.le_trans h₁.registers h₂.registers, h₁.constants.trans h₂.constants⟩

end Lowering

open Lowering

variable {k : Setting} {own : Nat → Prop} {near defs : List String} {w w' w₁ w₂ w₃ w₄ : Stock}

/-! ### Operands of two runs -/

namespace Operand

/-- The operand loads from the pool. -/
def isPooled : Operand → Bool
  | constant _ => true
  | _ => false

/-- The operand is neither a register, nor from the pool, nor a label, and holds no label. -/
def isFree : Operand → Bool
  | register _ _ | constant _ | label _ => false
  | immediate v => !v.hasLabel
  | _ => true

/-- Two operands are the same, or the first is an array or a table in place and the second loads it from the
pool, where an equal one may have come first. -/
inductive Loads (loading : Loading) (pool : List Value) : Operand → Operand → Prop
  | same {a : Operand} : (loading = .mixed → a.isPooled = false) → Loads loading pool a a
  | entry {i : Nat} {u v : Value} : loading = .mixed → v.isAggregate = true → pool[i]? = some u →
      (u = v ∨ u.same v = true) → Loads loading pool (.immediate v) (.constant i)

/-- The operands of two runs stand for the same, and that of the second is data within its registers. -/
structure Fits (k : Setting) (own : Nat → Prop) (w : Stock) (a a' : Operand) : Prop where
  loads : a.Loads k.loading w.constants a'
  sound : k.labelFree = true → a'.Sound w.constants.length
  owned : a'.Owned own w.registers

variable {a a' dst : Operand}

/-- An entry of the pool stays where it is. -/
theorem Loads.mono {loading : Loading} {pool pool' : List Value} (h : a.Loads loading pool a')
    (hle : pool <+: pool') : a.Loads loading pool' a' := by
  cases h with
  | same hsame => exact .same hsame
  | entry hmixed hv hi hu =>
    obtain ⟨hlt, rfl⟩ := List.getElem?_eq_some_iff.mp hi
    exact .entry hmixed hv (List.prefix_iff_getElem?.mp hle _ hlt) hu

/-- Operands go on to fit when more is in use. -/
theorem Fits.mono (h : a.Fits k own w a') (hle : w.Within w') : a.Fits k own w' a' :=
  ⟨h.loads.mono hle.constants, fun hfree ↦ (h.sound hfree).mono hle.constants.length_le,
    h.owned.mono hle.registers⟩

/-- What can be written is the same in both runs. -/
theorem Writable.fits (h : a.Writable own w.registers) : a.Fits k own w a := by
  refine ⟨.same fun _ ↦ ?_, fun _ ↦ ?_, h.owned⟩
  · cases a with
    | constant => exact h.elim
    | _ => rfl
  · cases a with
    | register | input | field => exact trivial
    | _ => exact h.elim

/-- A value without labels fits everywhere. -/
theorem Fits.immediate {v : Value} (h : k.labelFree = true → v.hasLabel = false) :
    (Operand.immediate v).Fits k own w (.immediate v) := ⟨.same fun _ ↦ rfl, h, owned_of_register? rfl⟩

/-- A free operand fits everywhere. -/
theorem Fits.free (h : a.isFree = true) : a.Fits k own w a := by
  cases a with
  | register | constant | label => cases h
  | immediate v => exact .immediate fun _ ↦ by simpa [isFree] using h
  | _ => exact ⟨.same fun _ ↦ rfl, fun _ ↦ trivial, owned_of_register? rfl⟩

/-- A destination is told from two operands that fit in the same way. -/
private theorem Writable.beq_eq {n : Nat} (hdst : dst.Writable own n) {loading : Loading} {pool : List Value}
    (h : a.Loads loading pool a') : (dst == a) = (dst == a') := by
  cases h with
  | same => rfl
  | entry =>
    cases dst with
    | register | input | field => rfl
    | _ => exact hdst.elim

/-- The operands of two statements fit one by one. -/
abbrev AllFit (k : Setting) (own : Nat → Prop) (w : Stock) : List Operand → List Operand → Prop :=
  List.Forall₂ (Fits k own w)

/-- Lists of operands go on to fit when more is in use. -/
theorem AllFit.mono {as as' : List Operand} (h : AllFit k own w as as') (hle : w.Within w') :
    AllFit k own w' as as' := h.imp fun _ _ ha ↦ ha.mono hle

end Operand

namespace Lowering

open Operand (Fits AllFit)

/-! ### The description of steps -/

variable {α β : Type}

/-- Results that are the same, with a property. -/
def Alike (p : Stock → α → Prop) (w : Stock) (a a' : α) : Prop := a = a' ∧ p w a

/-- Results that are the same. -/
abbrev Any : Stock → α → α → Prop := Alike fun _ _ ↦ True

/-- What a name stands for is within the registers, and holds no labels. -/
def Bound (k : Setting) (own : Nat → Prop) (w : Stock) : Option Binding → Prop
  | none => True
  | some (.register r _) => own r ∧ r < w.registers
  | some (.constant v) => k.labelFree = true → v.hasLabel = false

/-- Two steps of emitting code, with `w` in use at least, that are built from the steps of expressions.
They touch no register but those of `own`, go only to labels of `near` and define the labels `defs`, and
their results have `P`. That a new register is one of `own`, and so is the register of a local, is taken for
granted here. -/
inductive Built (k : Setting) (own : Nat → Prop) : {α : Type} → List String → List String → Stock →
    (Stock → α → α → Prop) → Lower α → Lower α → Prop
  | pure {α : Type} {near : List String} {w : Stock} {P : Stock → α → α → Prop} {a a' : α} :
      (∀ w', w.Within w' → P w' a a') → Built k own near [] w P (Pure.pure a) (Pure.pure a')
  | fail {α : Type} {near defs : List String} {w : Stock} {P : Stock → α → α → Prop} (e : Error) :
      Built k own near defs w P (throw e : Lower α) (throw e)
  | bind {α β : Type} {near defs defs' : List String} {w : Stock} {P : Stock → α → α → Prop}
      {Q : Stock → β → β → Prop} {act act' : Lower α} {f f' : α → Lower β} :
      Built k own near defs w P act act' →
      (∀ w' a a', w.Within w' → P w' a a' → Built k own near defs' w' Q (f a) (f' a')) →
      Built k own near (defs ++ defs') w Q (act >>= f) (act' >>= f')
  | construct {β : Type} {near : List String} {w : Stock} {Q : Stock → β → β → Prop}
      {f f' : Nat → Lower β} (kind : String) (parts : List String) : PlainParts kind parts →
      (∀ n, Built k own (parts.map (labelName kind n) ++ near) (parts.map (labelName kind n)) w Q (f n)
        (f' n)) →
      Built k own near [] w Q (newConstruct >>= f) (newConstruct >>= f')
  | register {near : List String} {w : Stock} (ty : Ty) :
      Built k own near [] w (Alike fun w a ↦ a.Writable own w.registers) (newRegister ty) (newRegister ty)
  | literal {near : List String} {w : Stock} {v : Value} : v.isAggregate = true → v.hasLabel = false →
      Built k own near [] w (Fits k own) (loadConstant k.first v) (loadConstant k.second v)
  | function {near : List String} {w : Stock} {index : UInt32} {name : String} : k.allowed index name →
      Built k own near [] w Any (declareFunction index { name, implicit := true })
        (declareFunction index { name, implicit := true })
  | lookup {near : List String} {w : Stock} (name : String) :
      Built k own near [] w (Alike (Bound k own)) (lookup? name) (lookup? name)
  | clobbered {near : List String} {w : Stock} {a a' : Operand} (later : List Expr) :
      a.Fits k own w a' → Built k own near [] w Any (clobbered a later) (clobbered a' later)
  | straight {near : List String} {w : Stock} {op : Opcode} {as as' : List Operand} :
      op.isStraight = true → op.output ≠ .rebind → AllFit k own w as as' →
      Built k own near [] w Any (emit op as) (emit op as')
  | rebind {near : List String} {w : Stock} {dst a a' : Operand} : dst.Writable own w.registers →
      a.Fits k own w a' → Built k own near [] w Any (emit .reref [rebindTarget dst, a])
        (emit .reref [rebindTarget dst, a'])
  | branch {near : List String} {w : Stock} {op : Opcode} {as as' : List Operand} {l : String} :
      op.isBranch = true → AllFit k own w as as' → l ∈ near →
      Built k own near [] w Any (emit op (as ++ [Operand.label l])) (emit op (as' ++ [Operand.label l]))
  | switch {near : List String} {w : Stock} {a a' : Operand} {v : Value} : k.loading.second = false →
      v.IsJumpTable → (∀ l ∈ FlowGraph.tableTargets v, l ∈ near) → a.Fits k own w a' →
      Built k own near [] w Any (loadConstant k.first v >>= fun t ↦ emit .switch [a, t])
        (loadConstant k.second v >>= fun t ↦ emit .switch [a', t])
  | label {near : List String} {w : Stock} (l : String) :
      Built k own near [l] w Any (emitLabel l) (emitLabel l)

variable {P : Stock → α → α → Prop} {Q : Stock → β → β → Prop} {act act' : Lower α} {f f' : α → Lower β}
  {p : Stock → α → Prop} {into : Option Operand} {a a' dst : Operand} {op : Opcode}
  {as as' : List Operand} {place place' : Place}

/-! ### Rules -/

namespace Built

/-- One step after another, where the first defines no labels. -/
theorem step (h : Built k own near [] w P act act')
    (hf : ∀ w' a a', w.Within w' → P w' a a' → Built k own near defs w' Q (f a) (f' a')) :
    Built k own near defs w Q (act >>= f) (act' >>= f') := h.bind hf

/-- One step after another that uses its result. -/
theorem next (h : Built k own near [] w (Alike p) act act')
    (hf : ∀ w' a, w.Within w' → p w' a → Built k own near defs w' Q (f a) (f' a)) :
    Built k own near defs w Q (act >>= f) (act' >>= f') := by
  refine h.step fun w' a a' hw ha ↦ ?_
  obtain ⟨rfl, ha⟩ := ha
  exact hf w' a hw ha

/-- One step after another whose result does not matter. -/
theorem andThen (h : Built k own near [] w Any act act')
    (hf : ∀ w' a, w.Within w' → Built k own near defs w' Q (f a) (f' a)) :
    Built k own near defs w Q (act >>= f) (act' >>= f') := h.next fun w' a hw _ ↦ hf w' a hw

/-- A label comes first. -/
private theorem labelled {l : String} {f f' : Unit → Lower β}
    (h : ∀ w', w.Within w' → Built k own near defs w' Q (f ()) (f' ())) :
    Built k own near (l :: defs) w Q (emitLabel l >>= f) (emitLabel l >>= f') :=
  (Built.label l).bind fun w' _ _ hw _ ↦ h w' hw

/-- A step that is done. -/
theorem done {a : α} : Built k own near [] w Any (Pure.pure a : Lower α) (Pure.pure a) :=
  .pure fun _ _ ↦ ⟨rfl, trivial⟩

/-- A choice that the two runs make alike. -/
theorem ite {c : Prop} [Decidable c] {x x' y y' : Lower α} (h : c → Built k own near defs w P x x')
    (h' : ¬c → Built k own near defs w P y y') :
    Built k own near defs w P (if c then x else y) (if c then x' else y') := by
  by_cases hc : c
  · rw [if_pos hc, if_pos hc]
    exact h hc
  · rw [if_neg hc, if_neg hc]
    exact h' hc

/-- A choice by tests with the same outcome. -/
private theorem iteOf {b b' : Bool} {x x' y y' : Lower α} (hb : b = b')
    (h : b = true → Built k own near defs w P x x') (h' : ¬b = true → Built k own near defs w P y y') :
    Built k own near defs w P (if b then x else y) (if b' then x' else y') := by
  subst hb
  exact .ite h h'

/-- A step whose result is dropped. -/
theorem dropped (h : Built k own near [] w P act act') :
    Built k own near [] w Any (discard act) (discard act') := by
  rw [discard_eq, discard_eq]
  exact h.step fun _ _ _ _ _ ↦ .done

/-- A statement without a destination. -/
private theorem use (hop : op.isStraight = true) (hout : op.output = .none) (h : AllFit k own w as as') :
    Built k own near [] w Any (emit op as) (emit op as') := .straight hop (hout.trans_ne (by decide)) h

/-- A statement whose first operand is its destination. -/
theorem write (hop : op.isStraight = true) (hout : op.output = .write) (h : dst.Writable own w.registers)
    (has : AllFit k own w as as') : Built k own near [] w Any (emit op (dst :: as)) (emit op (dst :: as')) :=
  .straight hop (hout.trans_ne (by decide)) (.cons h.fits has)

/-- A jump. -/
theorem jump {l : String} (h : l ∈ near) : Built k own near [] w Any (emitJump l) (emitJump l) :=
  .branch rfl (.nil : AllFit k own w [] []) h

end Built

/-- A result that is there, with a property, or an error. -/
private theorem built_orFail {r : Except Error α} (h : ∀ x, r = .ok x → ∀ w', p w' x) :
    Built k own near [] w (Alike p) (orFail r) (orFail r) := by
  cases r with
  | ok x => exact .pure fun w' _ ↦ ⟨rfl, h x rfl w'⟩
  | error e => exact .fail e

/-- The place that the caller wants a value in can be written. -/
abbrev Offered (own : Nat → Prop) (w : Stock) (into : Option Operand) : Prop :=
  ∀ dst ∈ into, dst.Writable own w.registers

/-- The caller wants a value in no place. -/
private theorem offered_none : Offered own w none := by
  rintro _ ⟨⟩

/-- The caller wants a value in a place that can be written. -/
theorem offered_some (h : dst.Writable own w.registers) : Offered own w (some dst) := by
  rintro _ ⟨⟩
  exact h

/-- The place that the caller wants a value in can be written also later. -/
private theorem Offered.later (h : Offered own w into) (hle : w.Within w') : Offered own w' into :=
  fun dst hdst ↦ (h dst hdst).mono hle.registers

/-! ### Copies and places -/

private theorem built_destination (h : Offered own w into) (ty : Ty) :
    Built k own near [] w (Alike fun w a ↦ a.Writable own w.registers) (destination into ty)
      (destination into ty) := by
  cases into with
  | none => exact .register ty
  | some dst => exact .pure fun _ hw ↦ ⟨rfl, (h dst rfl).mono hw.registers⟩

/-- A value is stored in a place that can be written. -/
theorem built_copyInto (h : dst.Writable own w.registers) (ha : a.Fits k own w a') (ty : Ty) :
    Built k own near [] w Any (copyInto dst a ty) (copyInto dst a' ty) := by
  unfold copyInto
  rw [h.beq_eq ha.loads]
  exact .ite (fun _ ↦ .done) fun _ ↦ .ite (fun _ ↦ .rebind h ha) fun _ ↦
    .write rfl rfl h (.cons ha .nil)

private theorem built_deliver (ha : a.Fits k own w a') (h : Offered own w into) (ty : Ty) :
    Built k own near [] w (Fits k own) (deliver a into ty) (deliver a' into ty) := by
  cases into with
  | none => exact .pure fun _ hw ↦ ha.mono hw
  | some dst =>
    have hdst := h dst rfl
    exact (built_copyInto hdst ha ty).andThen fun _ _ hw ↦ .pure fun _ hw' ↦
      (hdst.mono (hw.trans hw').registers).fits

private theorem built_pin (ha : a.Fits k own w a') {later later' : List Expr} (hlater : later = later') :
    Built k own near [] w (Fits k own) (pin a later) (pin a' later') := by
  subst hlater
  obtain ⟨hloads, hsound, howned⟩ := ha
  cases hloads with
  | entry hmixed hv hi hu =>
    -- a literal is clobbered by nothing
    exact .pure fun _ hw ↦ Fits.mono ⟨.entry hmixed hv hi hu, hsound, howned⟩ hw
  | same hsame =>
    have ha : a.Fits k own w a := ⟨.same hsame, hsound, howned⟩
    refine (Built.clobbered later ha).andThen fun w₁ _ h₁ ↦ .ite (fun _ ↦ ?_) fun _ ↦
      .pure fun _ h₂ ↦ ha.mono (h₁.trans h₂)
    exact (Built.register _).next fun w₂ copy h₂ hcopy ↦
      (built_copyInto hcopy (ha.mono (h₁.trans h₂)) _).andThen fun w₃ _ h₃ ↦
      .pure fun _ h₄ ↦ (hcopy.mono (h₃.trans h₄).registers).fits

private theorem built_apply (hop : op.isStraight = true) (hout : op.output = .write)
    (has : AllFit k own w as as') (h : Offered own w into) (ty : Ty) :
    Built k own near [] w (Fits k own) (do
      let dst ← destination into ty
      emit op (dst :: as)
      return dst) (do
      let dst ← destination into ty
      emit op (dst :: as')
      return dst) :=
  (built_destination h ty).next fun _ _ hw hdst ↦
    (Built.write hop hout hdst (has.mono hw)).andThen fun _ _ hw ↦ .pure fun _ hw' ↦
    (hdst.mono (hw.trans hw').registers).fits

/-- Two places are the same, but for operands that fit. A variable can be written. -/
inductive Place.Fits (k : Setting) (own : Nat → Prop) (w : Stock) : Place → Place → Prop
  | direct {a : Operand} {ty : Ty} : a.Writable own w.registers → Fits k own w (.direct a ty) (.direct a ty)
  | staticField {i : UInt32} {ty : Ty} : Fits k own w (.staticField i ty) (.staticField i ty)
  | field {a a' : Operand} {i : UInt32} {ty : Ty} : a.Fits k own w a' →
      Fits k own w (.field a i ty) (.field a' i ty)
  | staticProperty {i : UInt32} {ty : Ty} : Fits k own w (.staticProperty i ty) (.staticProperty i ty)
  | property {a a' : Operand} {i : UInt32} {ty : Ty} : a.Fits k own w a' →
      Fits k own w (.property a i ty) (.property a' i ty)
  | element {a a' b b' : Operand} {table : Bool} {ty : Ty} : a.Fits k own w a' → b.Fits k own w b' →
      Fits k own w (.element a b table ty) (.element a' b' table ty)

namespace Place.Fits

private theorem later (h : place.Fits k own w place') (hle : w.Within w') : place.Fits k own w' place' := by
  cases h with
  | direct ha => exact .direct (ha.mono hle.registers)
  | staticField => exact .staticField
  | field ha => exact .field (ha.mono hle)
  | staticProperty => exact .staticProperty
  | property ha => exact .property (ha.mono hle)
  | element ha hb => exact .element (ha.mono hle) (hb.mono hle)

private theorem ty_eq (h : place.Fits k own w place') : place.ty = place'.ty := by
  cases h <;> rfl

private theorem register?_eq (h : place.Fits k own w place') : place.register? = place'.register? := by
  cases h <;> rfl

private theorem register (h : place.Fits k own w place') (hdst : place.register? = some dst) :
    dst.Writable own w.registers := by
  cases h with
  | direct ha =>
    unfold Place.register? at hdst
    split at hdst
    · next heq =>
      cases heq
      cases hdst
      exact ha
    · cases hdst
  | _ => cases hdst

end Place.Fits

private theorem built_load (h : Offered own w into) (hp : place.Fits k own w place') :
    Built k own near [] w (Fits k own) (place.load into) (place'.load into) := by
  cases hp with
  | direct ha => exact built_deliver ha.fits h _
  | staticField | staticProperty => exact built_apply rfl rfl (.cons (.free rfl) .nil) h _
  | field ha | property ha => exact built_apply rfl rfl (.cons ha (.cons (.free rfl) .nil)) h _
  | @element _ _ _ _ table _ ha hb =>
    cases table <;> exact built_apply rfl rfl (.cons ha (.cons hb .nil)) h _

private theorem built_store (ha : a.Fits k own w a') (hp : place.Fits k own w place') :
    Built k own near [] w Any (place.store a) (place'.store a') := by
  cases hp with
  | direct hdst => exact built_copyInto hdst ha _
  | staticField | staticProperty => exact .use rfl rfl (.cons (.free rfl) (.cons ha .nil))
  | field hb | property hb => exact .use rfl rfl (.cons hb (.cons (.free rfl) (.cons ha .nil)))
  | @element _ _ _ _ table _ hb hc =>
    cases table <;> exact .use rfl rfl (.cons hb (.cons hc (.cons ha .nil)))

private theorem built_pinned {later later' : List Expr} (hlater : later = later')
    (hp : place.Fits k own w place') :
    Built k own near [] w (Place.Fits k own) (place.pinned later) (place'.pinned later') := by
  cases hp with
  | field ha => exact (built_pin ha hlater).step fun _ _ _ _ ha ↦ .pure fun _ hw ↦ .field (ha.mono hw)
  | property ha =>
    exact (built_pin ha hlater).step fun _ _ _ _ ha ↦ .pure fun _ hw ↦ .property (ha.mono hw)
  | element ha hb =>
    exact (built_pin ha hlater).step fun _ _ _ h₁ ha ↦ (built_pin (hb.mono h₁) hlater).step
      fun _ _ _ h₂ hb ↦ .pure fun _ h₃ ↦ .element (ha.mono (h₂.trans h₃)) (hb.mono h₃)
  | direct ha => exact .pure fun _ hw ↦ .direct (ha.mono hw.registers)
  | staticField => exact .pure fun _ _ ↦ .staticField
  | staticProperty => exact .pure fun _ _ ↦ .staticProperty

/-! ### Expressions -/

/-- All ways to run an expression are built from the steps of expressions. -/
structure ExprBuilt (k : Setting) (own : Nat → Prop) (c c' : ExprCode) : Prop where
  expr : c.expr = c'.expr
  value : ∀ {near : List String} {w : Stock} into, Offered own w into →
    Built k own near [] w (Fits k own) (c.value into) (c'.value into)
  branch : ∀ {near : List String} {w : Stock} {target : String} sense, target ∈ near →
    Built k own near [] w Any (c.branch target sense) (c'.branch target sense)
  place : ∀ {near : List String} {w : Stock}, Built k own near [] w (Place.Fits k own) c.place c'.place
  receiver : ∀ {near : List String} {w : Stock},
    Built k own near [] w (Fits k own) c.receiver c'.receiver
  run : ∀ {near : List String} {w : Stock}, Built k own near [] w Any c.run c'.run

namespace ExprBuilt

variable {c c' lhs lhs' rhs rhs' : ExprCode} {args args' : List ExprCode}
  {entries entries' : List (ExprCode × ExprCode)}

/-- The value, wherever it is, for use as an operand. -/
theorem operand (h : ExprBuilt k own c c') :
    Built k own near [] w (Fits k own) (c.value none) (c'.value none) := h.value none offered_none

private theorem ty_eq (h : ExprBuilt k own c c') (ctx : Context) : c.ty ctx = c'.ty ctx := by
  rw [ExprCode.ty, ExprCode.ty, h.expr]

private theorem exprs_eq (h : List.Forall₂ (ExprBuilt k own) args args') :
    args.map (·.expr) = args'.map (·.expr) := by
  induction h with
  | nil => rfl
  | cons ha _ ih => rw [List.map_cons, List.map_cons, ha.expr, ih]

private theorem ofValue (e : Expr) {value value' : Option Operand → Lower Operand}
    (h : ∀ {near : List String} {w : Stock} into, Offered own w into →
      Built k own near [] w (Fits k own) (value into) (value' into)) :
    ExprBuilt k own (.ofValue k.first e value) (.ofValue k.second e value') where
  expr := rfl
  value := h
  branch sense ht := by
    refine (h none offered_none).step fun w₁ v v' _ hv ↦ ?_
    have hoperands : AllFit k own w₁ [v] [v'] := .cons hv .nil
    exact .branch (by cases sense <;> rfl) hoperands ht
  place := .fail _
  receiver := .pure fun _ _ ↦ .free rfl
  run := (h none offered_none).dropped

/-! #### Literals, names and members -/

/-- The value of a literal holds no labels. -/
theorem hasLabel_literalValue {lit : Literal} {ty : Ty} {span : Span} {v : Value}
    (h : literalValue lit ty span = .ok v) : v.hasLabel = false := by
  have hint {n : Int64} {v : Value} (h : intValue n ty span = .ok v) : v.hasLabel = false := by
    unfold intValue at h
    split at h <;> first | (cases h; rfl) | cases h
  unfold literalValue at h
  split at h <;> first | exact hint h | (cases h; rfl)

/-- The value of a literal, in both runs. -/
theorem built_literalValue (lit : Literal) (ty : Ty) (span : Span) :
    Built k own near [] w (Alike fun _ v ↦ v.hasLabel = false) (orFail (literalValue lit ty span))
      (orFail (literalValue lit ty span)) := built_orFail fun _ hv _ ↦ hasLabel_literalValue hv

private theorem ofLiteral (e : Expr) (lit : Literal) :
    ExprBuilt k own (.ofLiteral k.first e lit) (.ofLiteral k.second e lit) := by
  have hcode : ExprBuilt k own (.ofValue k.first e fun into ↦ do
      deliver (.immediate (← orFail (literalValue lit (k.first.typeOf e.id) e.span))) into
        (k.first.typeOf e.id)) (.ofValue k.second e fun into ↦ do
      deliver (.immediate (← orFail (literalValue lit (k.second.typeOf e.id) e.span))) into
        (k.second.typeOf e.id)) :=
    ofValue e fun into h ↦ (built_literalValue lit _ _).next fun _ _ hw hv ↦
      built_deliver (.immediate fun _ ↦ hv) (h.later hw) _
  cases lit with
  | bool b =>
    exact { hcode with branch := fun sense ht ↦ .ite (fun _ ↦ .jump ht) fun _ ↦ .done }
  | char _ | int _ | uint _ | float _ | string _ | null => exact hcode

private theorem built_localPlace (e : Expr) (name : String) :
    Built k own near [] w (Place.Fits k own) (ExprCode.localPlace e name)
      (ExprCode.localPlace e name) := by
  refine (Built.lookup name).next fun _ b _ hb ↦ ?_
  split
  · next r ty =>
    have hr : (Operand.register r ty).Writable own _ := hb
    exact .pure fun _ hw ↦ .direct (hr.mono hw.registers)
  · exact .fail _
  · exact .fail _

private theorem built_localValue (e : Expr) (name : String) (h : Offered own w into) :
    Built k own near [] w (Fits k own) (ExprCode.localValue k.first e name into)
      (ExprCode.localValue k.second e name into) := by
  refine (Built.lookup name).next fun _ b hw hb ↦ ?_
  split
  · next r ty =>
    have hr : (Operand.register r ty).Writable own _ := hb
    exact built_deliver hr.fits (h.later hw) _
  · exact built_deliver (.immediate hb) (h.later hw) _
  · exact .fail _

private theorem built_namePlace (e : Expr) (name : String) :
    Built k own near [] w (Place.Fits k own) (ExprCode.namePlace k.first e name)
      (ExprCode.namePlace k.second e name) := by
  show Built k own near [] w _ (ExprCode.namePlace k.first e name) (ExprCode.namePlace k.first e name)
  unfold ExprCode.namePlace
  split
  · exact built_localPlace e name
  · split
    · exact built_localPlace e name
    · exact .pure fun _ _ ↦ .direct trivial
    · exact .ite (fun _ ↦ .pure fun _ _ ↦ .staticField) fun _ ↦ .pure fun _ _ ↦ .direct trivial
    · exact .ite (fun _ ↦ .pure fun _ _ ↦ .staticProperty) fun _ ↦ .pure fun _ _ ↦ .property (.free rfl)
    · exact .fail _
    · exact .fail _

private theorem ofName (e : Expr) (name : String) :
    ExprBuilt k own (.ofName k.first e name) (.ofName k.second e name) := by
  have hvalue {near : List String} {w : Stock} (into : Option Operand) (h : Offered own w into) :
      Built k own near [] w (Fits k own) (ExprCode.nameValue k.first e name into)
        (ExprCode.nameValue k.second e name into) := by
    have hplace : Built k own near [] w (Fits k own)
        (do (← ExprCode.namePlace k.first e name).load into)
        (do (← ExprCode.namePlace k.first e name).load into) :=
      (built_namePlace e name).step fun _ _ _ hw hp ↦ built_load (h.later hw) hp
    show Built k own near [] w _ (ExprCode.nameValue k.first e name into)
      (ExprCode.nameValue k.first e name into)
    unfold ExprCode.nameValue
    simp only
    split
    · exact built_localValue e name h
    · split
      · exact built_localValue e name h
      · exact built_deliver (.free rfl) h _
      · exact hplace
      · exact hplace
      · refine built_apply rfl rfl (.cons (.free ?_) (.cons (.free rfl) .nil)) h _
        split <;> rfl
      · exact .fail _
  exact { ofValue e hvalue with place := built_namePlace e name }

private theorem ofThis (e : Expr) : ExprBuilt k own (.ofThis k.first e) (.ofThis k.second e) :=
  ofValue e fun _ h ↦ built_deliver (.free rfl) h _

private theorem built_memberPlace (e : Expr) (h : ExprBuilt k own c c') (name : String) :
    Built k own near [] w (Place.Fits k own) (ExprCode.memberPlace k.first e c name)
      (ExprCode.memberPlace k.second e c' name) := by
  show Built k own near [] w _ (ExprCode.memberPlace k.first e c name)
    (ExprCode.memberPlace k.first e c' name)
  unfold ExprCode.memberPlace
  simp only
  rw [← h.expr]
  split
  · exact .fail _
  · split
    · refine .ite (fun _ ↦ .pure fun _ _ ↦ .staticField) fun _ ↦ ?_
      split
      · exact .pure fun _ _ ↦ .direct trivial
      · exact h.operand.step fun _ _ _ _ hv ↦ .pure fun _ hw ↦ .field (hv.mono hw)
    · exact .ite (fun _ ↦ .pure fun _ _ ↦ .staticProperty) fun _ ↦ h.operand.step fun _ _ _ _ hv ↦
        .pure fun _ hw ↦ .property (hv.mono hw)
    · exact .fail _

private theorem ofMember (e : Expr) (h : ExprBuilt k own c c') (name : String) :
    ExprBuilt k own (.ofMember k.first e c name) (.ofMember k.second e c' name) := by
  have hvalue {near : List String} {w : Stock} (into : Option Operand) (hinto : Offered own w into) :
      Built k own near [] w (Fits k own) (ExprCode.memberValue k.first e c name into)
        (ExprCode.memberValue k.second e c' name into) := by
    show Built k own near [] w _ (ExprCode.memberValue k.first e c name into)
      (ExprCode.memberValue k.first e c' name into)
    unfold ExprCode.memberValue
    simp only
    rw [← h.ty_eq]
    split
    · refine .ite (fun _ ↦ .ite (fun _ ↦ ?_) fun _ ↦ ?_) fun _ ↦ ?_
      · exact (Built.pure fun _ _ ↦ Fits.free rfl).step fun _ _ _ hw hv ↦
          built_apply rfl rfl (.cons hv (.cons (.free rfl) .nil)) (hinto.later hw) _
      · exact h.operand.step fun _ _ _ hw hv ↦
          built_apply rfl rfl (.cons hv (.cons (.free rfl) .nil)) (hinto.later hw) _
      · exact (built_memberPlace e h name).step fun _ _ _ hw hp ↦ built_load (hinto.later hw) hp
    · refine .ite (fun _ ↦ ?_) fun _ ↦ .fail _
      exact h.operand.step fun _ _ _ hw hv ↦ built_apply rfl rfl (.cons hv .nil) (hinto.later hw) _
  exact { ofValue e hvalue with
    place := built_memberPlace e h name
    receiver := h.operand }

private theorem built_operands (hl : ExprBuilt k own lhs lhs') (hr : ExprBuilt k own rhs rhs') :
    Built k own near [] w (AllFit k own) (ExprCode.operands lhs rhs) (ExprCode.operands lhs' rhs') :=
  hl.operand.step fun _ _ _ _ hv ↦ (built_pin hv (congrArg (fun e ↦ [e]) hr.expr)).step fun _ _ _ _ ha ↦
    hr.operand.step fun _ _ _ h₁ hb ↦ .pure fun _ h₂ ↦
    .cons (ha.mono (h₁.trans h₂)) (.cons (hb.mono h₂) .nil)

private theorem ofIndex (e : Expr) (hl : ExprBuilt k own lhs lhs') (hr : ExprBuilt k own rhs rhs') :
    ExprBuilt k own (.ofIndex k.first e lhs rhs) (.ofIndex k.second e lhs' rhs') := by
  have hplace {near : List String} {w : Stock} : Built k own near [] w (Place.Fits k own)
      (ExprCode.elementPlace k.first e lhs rhs) (ExprCode.elementPlace k.second e lhs' rhs') := by
    show Built k own near [] w _ (ExprCode.elementPlace k.first e lhs rhs)
      (ExprCode.elementPlace k.first e lhs' rhs')
    unfold ExprCode.elementPlace
    rw [← hl.ty_eq]
    exact hl.operand.step fun _ _ _ _ hv ↦ (built_pin hv (congrArg (fun e ↦ [e]) hr.expr)).step
      fun _ _ _ _ ha ↦ hr.operand.step fun _ _ _ h₁ hb ↦ .pure fun _ h₂ ↦
      .element (ha.mono (h₁.trans h₂)) (hb.mono h₂)
  have hvalue {near : List String} {w : Stock} (into : Option Operand) (h : Offered own w into) :
      Built k own near [] w (Fits k own) (do (← ExprCode.elementPlace k.first e lhs rhs).load into)
        (do (← ExprCode.elementPlace k.second e lhs' rhs').load into) :=
    hplace.step fun _ _ _ hw hp ↦ built_load (h.later hw) hp
  exact { ofValue e hvalue with place := hplace }

/-! #### Operators -/

private theorem ofUnary (e : Expr) (op : UnaryOp) (h : ExprBuilt k own c c') :
    ExprBuilt k own (.ofUnary k.first e op c) (.ofUnary k.second e op c') := by
  have hcompute (opcode : Opcode) (hop : opcode.isStraight = true) (hout : opcode.output = .write) :
      ExprBuilt k own (.ofValue k.first e fun into ↦ do
        ExprCode.apply opcode [← c.value none] into (k.first.typeOf e.id)) (.ofValue k.second e fun into ↦ do
        ExprCode.apply opcode [← c'.value none] into (k.second.typeOf e.id)) :=
    ofValue e fun _ hinto ↦ h.operand.step fun _ _ _ hw hv ↦
      built_apply hop hout (.cons hv .nil) (hinto.later hw) _
  cases op with
  | plus => exact ofValue e h.value
  | neg => exact hcompute .neg rfl rfl
  | bitNot => exact hcompute .bitNot rfl rfl
  | not => exact { hcompute .not rfl rfl with branch := fun sense ht ↦ h.branch (!sense) ht }

private theorem binaryOpcode_isStraight (op : BinaryOp) (strings : Bool) :
    (ExprCode.binaryOpcode op strings).isStraight = true ∧
      (ExprCode.binaryOpcode op strings).output = .write := by
  cases op <;> cases strings <;> exact ⟨rfl, rfl⟩

private theorem ofBinary (e : Expr) (op : BinaryOp) (hl : ExprBuilt k own lhs lhs')
    (hr : ExprBuilt k own rhs rhs') :
    ExprBuilt k own (.ofBinary k.first e op lhs rhs) (.ofBinary k.second e op lhs' rhs') := by
  have hcode (strings : Bool) : ExprBuilt k own (.ofValue k.first e fun into ↦ do
      ExprCode.apply (ExprCode.binaryOpcode op strings) (← ExprCode.operands lhs rhs) into
        (k.first.typeOf e.id)) (.ofValue k.second e fun into ↦ do
      ExprCode.apply (ExprCode.binaryOpcode op strings) (← ExprCode.operands lhs' rhs') into
        (k.second.typeOf e.id)) := by
    obtain ⟨hop, hout⟩ := binaryOpcode_isStraight op strings
    exact ofValue e fun into h ↦ (built_operands hl hr).step fun _ _ _ hw hv ↦
      built_apply hop hout hv (h.later hw) _
  have hstrings : ((lhs.ty k.first).isString || (rhs.ty k.first).isString) =
      ((lhs'.ty k.second).isString || (rhs'.ty k.second).isString) := by
    rw [hl.ty_eq, hr.ty_eq]
    rfl
  unfold ExprCode.ofBinary
  simp only [hstrings]
  split
  · next relation hrel =>
    have hbranch (sense : Bool) :
        (if sense then relation else relation.inverted?.getD relation).isBranch = true := by
      split at hrel
      · cases op <;> cases sense <;> cases hrel <;> rfl
      · cases hrel
    exact { hcode _ with
      branch := fun sense ht ↦ (built_operands hl hr).step fun _ _ _ _ hv ↦ .branch (hbranch sense) hv ht }
  · exact hcode _

private theorem built_branchOnLogical (op : LogicalOp) (hl : ExprBuilt k own lhs lhs')
    (hr : ExprBuilt k own rhs rhs') {target : String} (sense : Bool) (ht : target ∈ near) :
    Built k own near [] w Any (ExprCode.branchOnLogical op lhs rhs target sense)
      (ExprCode.branchOnLogical op lhs' rhs' target sense) := by
  refine .ite (fun _ ↦ ?_) fun _ ↦ ?_
  · exact (hl.branch sense ht).andThen fun _ _ _ ↦ hr.branch sense ht
  · refine .construct (if op == .or then "or" else "and") ["skip"] ?_ fun n ↦ ?_
    · cases op <;> exact ⟨by decide, by decide, by decide⟩
    · exact (hl.branch (!sense) List.mem_cons_self).andThen fun _ _ _ ↦
        (hr.branch sense (List.mem_cons_of_mem _ ht)).andThen fun _ _ _ ↦ .label _

private theorem ofLogical (e : Expr) (op : LogicalOp) (hl : ExprBuilt k own lhs lhs')
    (hr : ExprBuilt k own rhs rhs') :
    ExprBuilt k own (.ofLogical k.first e op lhs rhs) (.ofLogical k.second e op lhs' rhs') := by
  have hvalue {near : List String} {w : Stock} (into : Option Operand) (h : Offered own w into) :
      Built k own near [] w (Fits k own) (ExprCode.valueOfBranch (ExprCode.branchOnLogical op lhs rhs) into)
        (ExprCode.valueOfBranch (ExprCode.branchOnLogical op lhs' rhs') into) := by
    refine .construct "bool" ["false", "end"] ⟨by decide, by decide, by decide⟩
      fun n ↦ (built_destination h _).next fun w₁ dst _ hdst ↦ ?_
    refine (built_branchOnLogical op hl hr false List.mem_cons_self).andThen fun w₂ _ h₂ ↦
      (Built.write rfl rfl (hdst.mono h₂.registers) (.cons (.free rfl) .nil)).andThen fun w₃ _ h₃ ↦
      (Built.jump (List.mem_cons_of_mem _ List.mem_cons_self)).andThen fun w₄ _ h₄ ↦
      .labelled fun w₅ h₅ ↦ ?_
    have hdst' := hdst.mono ((h₂.trans h₃).trans (h₄.trans h₅)).registers
    exact (Built.write rfl rfl hdst' (.cons (.free rfl) .nil)).andThen fun w₆ _ h₆ ↦
      .labelled fun w₇ h₇ ↦ .pure fun _ h₈ ↦ (hdst'.mono ((h₆.trans h₇).trans h₈).registers).fits
  exact { ofValue e hvalue with branch := fun sense ht ↦ built_branchOnLogical op hl hr sense ht }

private theorem ofConditional (e : Expr) (hc : ExprBuilt k own c c') (hl : ExprBuilt k own lhs lhs')
    (hr : ExprBuilt k own rhs rhs') :
    ExprBuilt k own (.ofConditional k.first e c lhs rhs) (.ofConditional k.second e c' lhs' rhs') := by
  refine ofValue e fun into h ↦ .construct "cond" ["else", "end"]
    ⟨by decide, by decide, by decide⟩ fun n ↦ (built_destination h _).next fun w₁ dst _ hdst ↦ ?_
  refine (hc.branch false List.mem_cons_self).andThen fun w₂ _ h₂ ↦
    (hl.value _ (offered_some (hdst.mono h₂.registers))).dropped.andThen fun w₃ _ h₃ ↦
    (Built.jump (List.mem_cons_of_mem _ List.mem_cons_self)).andThen fun w₄ _ h₄ ↦
    .labelled fun w₅ h₅ ↦ ?_
  have hdst' := hdst.mono ((h₂.trans h₃).trans (h₄.trans h₅)).registers
  exact (hr.value _ (offered_some hdst')).dropped.andThen fun w₆ _ h₆ ↦
    .labelled fun w₇ h₇ ↦ .pure fun _ h₈ ↦ (hdst'.mono ((h₆.trans h₇).trans h₈).registers).fits

/-! #### Assignments and steps -/

private theorem built_assignPlain (hp : place.Fits k own w place') (h : ExprBuilt k own c c') :
    Built k own near [] w (Fits k own) (ExprCode.assignPlain place c) (ExprCode.assignPlain place' c') := by
  unfold ExprCode.assignPlain
  rw [← hp.ty_eq, ← hp.register?_eq]
  split
  · next dst hdst =>
    split at hdst
    · cases hdst
    · exact h.value _ (offered_some (hp.register hdst))
  · exact h.operand.step fun _ _ _ h₁ hv ↦ (built_store hv (hp.later h₁)).andThen
      fun _ _ h₂ ↦ .pure fun _ h₃ ↦ hv.mono (h₂.trans h₃)

private theorem built_assignCompound (op : BinaryOp) (hp : place.Fits k own w place')
    (h : ExprBuilt k own c c') :
    Built k own near [] w (Fits k own) (ExprCode.assignCompound k.first op place c)
      (ExprCode.assignCompound k.second op place' c') := by
  show Built k own near [] w _ (ExprCode.assignCompound k.first op place c)
    (ExprCode.assignCompound k.first op place' c')
  unfold ExprCode.assignCompound
  rw [← hp.ty_eq, ← hp.register?_eq, ← h.ty_eq]
  obtain ⟨hop, hout⟩ := binaryOpcode_isStraight op (place.ty.isString || (c.ty k.first).isString)
  refine (built_load offered_none hp).step fun w₁ _ _ h₁ hv ↦
    (built_pin hv (congrArg (fun e ↦ [e]) h.expr)).step fun w₂ _ _ h₂ hcurrent ↦
    h.operand.step fun w₃ _ _ h₃ hrhs ↦ ?_
  have has : AllFit k own w₃ [_, _] [_, _] := .cons (hcurrent.mono h₃) (.cons hrhs .nil)
  have hw₃ := (h₁.trans h₂).trans h₃
  split
  · next dst hdst =>
    have hdst := (hp.register hdst).mono hw₃.registers
    exact (Built.write hop hout hdst has).andThen fun w₄ _ h₄ ↦ .pure fun _ h₅ ↦
      (hdst.mono (h₄.trans h₅).registers).fits
  · exact (Built.register _).next fun w₄ t h₄ ht ↦
      (Built.write hop hout ht (has.mono h₄)).andThen fun w₅ _ h₅ ↦
      (built_store (ht.mono h₅.registers).fits (hp.later (hw₃.trans (h₄.trans h₅)))).andThen fun w₆ _ h₆ ↦
      .pure fun _ h₇ ↦ (ht.mono (h₅.trans (h₆.trans h₇)).registers).fits

private theorem ofAssign (e : Expr) (op : Option BinaryOp) (hl : ExprBuilt k own lhs lhs')
    (hr : ExprBuilt k own rhs rhs') :
    ExprBuilt k own (.ofAssign k.first e lhs op rhs) (.ofAssign k.second e lhs' op rhs') := by
  refine ofValue e fun into h ↦ hl.place.step fun w₁ _ _ h₁ hp ↦
    (built_pinned (congrArg (fun e ↦ [e]) hr.expr) hp).step fun w₂ place place' h₂ hp ↦ ?_
  rw [← hp.ty_eq]
  cases op with
  | none =>
    exact (built_assignPlain hp hr).step fun w₃ _ _ h₃ hv ↦
      built_deliver hv (h.later ((h₁.trans h₂).trans h₃)) _
  | some op =>
    exact (built_assignCompound op hp hr).step fun w₃ _ _ h₃ hv ↦
      built_deliver hv (h.later ((h₁.trans h₂).trans h₃)) _

private theorem built_stepRegister (hop : op.isStraight = true) (hout : op.output = .write) {one : Operand}
    (hdst : dst.Writable own w.registers) (hone : one.isFree = true) (first : Bool)
    (h : Offered own w into) (ty : Ty) :
    Built k own near [] w (Fits k own) (ExprCode.stepRegister op dst one first into ty)
      (ExprCode.stepRegister op dst one first into ty) := by
  have hstep {w' : Stock} (hw : w.Within w') :
      Built k own near [] w' Any (emit op [dst, dst, one]) (emit op [dst, dst, one]) :=
    .write hop hout (hdst.mono hw.registers)
      (.cons (hdst.mono hw.registers).fits (.cons (.free hone) .nil))
  refine .ite (fun _ ↦ ?_) fun _ ↦ .ite (fun _ ↦ ?_) fun _ ↦ ?_
  · exact (hstep (.refl w)).andThen fun _ _ hw ↦
      built_deliver (hdst.mono hw.registers).fits (h.later hw) ty
  · exact (Built.register ty).next fun w₁ _ h₁ hold ↦
      (Built.write rfl rfl hold (.cons (hdst.mono h₁.registers).fits .nil)).andThen fun w₂ _ h₂ ↦
      (hstep (h₁.trans h₂)).andThen fun w₃ _ h₃ ↦
      built_deliver (hold.mono (h₂.trans h₃).registers).fits (h.later (h₁.trans (h₂.trans h₃))) ty
  · exact (built_destination h ty).next fun w₁ _ h₁ hold ↦
      (Built.write rfl rfl hold (.cons (hdst.mono h₁.registers).fits .nil)).andThen fun w₂ _ h₂ ↦
      (hstep (h₁.trans h₂)).andThen fun w₃ _ h₃ ↦
      .pure fun _ h₄ ↦ (hold.mono (h₂.trans (h₃.trans h₄)).registers).fits

private theorem built_stepPlace (hop : op.isStraight = true) (hout : op.output = .write)
    (hp : place.Fits k own w place') {one : Operand} (hone : one.isFree = true) (first : Bool)
    (h : Offered own w into) :
    Built k own near [] w (Fits k own) (ExprCode.stepPlace op place one first into)
      (ExprCode.stepPlace op place' one first into) := by
  have hrest {w' : Stock} (hw : w.Within w') {old old' : Operand} (hold : old.Fits k own w' old') :
      Built k own near [] w' (Fits k own) (do
        let updated ← newRegister place.ty
        emit op [updated, old, one]
        place.store updated
        deliver (if first then updated else old) into place.ty) (do
        let updated ← newRegister place.ty
        emit op [updated, old', one]
        place'.store updated
        deliver (if first then updated else old') into place.ty) := by
    refine (Built.register _).next fun w₁ updated h₁ hnew ↦
      (Built.write hop hout hnew (.cons (hold.mono h₁) (.cons (.free hone) .nil))).andThen fun w₂ _ h₂ ↦
      (built_store (hnew.mono h₂.registers).fits (hp.later (hw.trans (h₁.trans h₂)))).andThen fun w₃ _ h₃ ↦
      built_deliver ?_ (h.later (hw.trans (h₁.trans (h₂.trans h₃)))) _
    split
    · exact (hnew.mono (h₂.trans h₃).registers).fits
    · exact hold.mono (h₁.trans (h₂.trans h₃))
  unfold ExprCode.stepPlace
  rw [← hp.ty_eq]
  refine (built_load offered_none hp).step fun w₁ _ _ h₁ hcurrent ↦ .ite (fun _ ↦ ?_) fun _ ↦ ?_
  · exact (Built.pure fun _ hw ↦ hcurrent.mono hw).step fun w₂ _ _ h₂ hold ↦ hrest (h₁.trans h₂) hold
  · exact (Built.register _).next fun w₂ t h₂ ht ↦
      (Built.write rfl rfl ht (.cons (hcurrent.mono h₂) .nil)).andThen fun w₃ _ h₃ ↦
      (Built.pure fun _ hw ↦ (ht.mono (h₃.trans hw).registers).fits).step fun w₄ _ _ h₄ hold ↦
      hrest (h₁.trans (h₂.trans (h₃.trans h₄))) hold

private theorem ofIncDec (e : Expr) (increment first : Bool) (h : ExprBuilt k own c c') :
    ExprBuilt k own (.ofIncDec k.first e c increment first) (.ofIncDec k.second e c' increment first) := by
  have hop : (if increment then Opcode.add else .sub).isStraight = true := by
    cases increment <;> rfl
  have hout : (if increment then Opcode.add else .sub).output = .write := by
    cases increment <;> rfl
  have hstep {near : List String} {w : Stock} (first : Bool) (into : Option Operand)
      (hinto : Offered own w into) : Built k own near [] w (Fits k own) (ExprCode.step c increment first into)
        (ExprCode.step c' increment first into) := by
    refine h.place.step fun w₁ place place' h₁ hp ↦ ?_
    rw [← hp.ty_eq, ← hp.register?_eq, ← h.expr]
    refine (built_literalValue _ _ _).next fun w₂ v h₂ hv ↦ ?_
    have hone : (Operand.immediate v).isFree = true := by
      rw [Operand.isFree, hv]
      rfl
    split
    · next dst hdst =>
      exact built_stepRegister hop hout ((hp.register hdst).mono h₂.registers) hone first
        (hinto.later (h₁.trans h₂)) _
    · exact built_stepPlace hop hout (hp.later h₂) hone first (hinto.later (h₁.trans h₂))
  exact { ofValue e (hstep first) with run := (hstep true none offered_none).dropped }

/-! #### Calls -/

private theorem built_arguments (h : List.Forall₂ (ExprBuilt k own) args args') :
    Built k own near [] w (AllFit k own) (ExprCode.arguments args) (ExprCode.arguments args') := by
  induction h generalizing w with
  | nil => exact .pure fun _ _ ↦ .nil
  | cons harg hrest ih =>
    exact harg.operand.step fun _ _ _ _ hv ↦ (built_pin hv (exprs_eq hrest)).step fun _ _ _ _ ha ↦
      ih.step fun _ _ _ h₁ hvs ↦ .pure fun _ h₂ ↦ .cons (ha.mono (h₁.trans h₂)) (AllFit.mono hvs h₂)

private theorem built_pushArguments (h : AllFit k own w as as') (hw : w.Within w') :
    Built k own near [] w' Any (ExprCode.pushArguments as) (ExprCode.pushArguments as') := by
  induction h generalizing w' with
  | nil => exact .done
  | cons ha _ ih =>
    exact (Built.use rfl rfl (.cons (ha.mono hw) .nil)).andThen fun _ _ hw' ↦ ih (hw.trans hw')

private theorem built_emitCall {voidOp : Opcode} (hop : op.isStraight = true) (hout : op.output = .write)
    (hvoid : voidOp.isStraight = true) (hnone : voidOp.output = .none) (has : AllFit k own w as as')
    (h : Offered own w into) (ty : Ty) :
    Built k own near [] w (Fits k own) (ExprCode.emitCall op voidOp as into ty)
      (ExprCode.emitCall op voidOp as' into ty) := by
  refine .ite (fun _ ↦ ?_) fun _ ↦ built_apply hop hout has h ty
  exact (Built.use hvoid hnone has).andThen fun _ _ _ ↦ .pure fun _ _ ↦ .free rfl

private theorem built_callMethod (e : Expr) (sym : Symbol) (hc : ExprBuilt k own c c')
    (h : List.Forall₂ (ExprBuilt k own) args args') (hinto : Offered own w into)
    (hsym : sym.implicit = true → k.allowed sym.index sym.name) :
    Built k own near [] w (Fits k own) (ExprCode.callMethod k.first e sym c args into)
      (ExprCode.callMethod k.second e sym c' args' into) := by
  have hcall {w' : Stock} (hw : w.Within w') {op voidOp : Opcode} (hop : op.isStraight = true)
      (hout : op.output = .write) (hvoid : voidOp.isStraight = true) (hnone : voidOp.output = .none)
      {vs vs' as as' : List Operand} (hvs : AllFit k own w' vs vs') (has : AllFit k own w' as as') :
      Built k own near [] w' (Fits k own) (do
        ExprCode.pushArguments vs
        ExprCode.emitCall op voidOp as into (k.first.typeOf e.id)) (do
        ExprCode.pushArguments vs'
        ExprCode.emitCall op voidOp as' into (k.second.typeOf e.id)) :=
    (built_pushArguments hvs (.refl _)).andThen fun _ _ hw' ↦
      built_emitCall hop hout hvoid hnone (has.mono hw') (hinto.later (hw.trans hw')) _
  have hrest {w' : Stock} (hw : w.Within w') : Built k own near [] w' (Fits k own) (do
      if sym.isStatic then
        ExprCode.pushArguments (← ExprCode.arguments args)
        ExprCode.emitCall .call .callVoid [.immediate (.method sym.index)] into (k.first.typeOf e.id)
      else
        let object ← pin (← c.receiver) (args.map (·.expr))
        let values ← ExprCode.arguments args
        if sym.isVirtual then
          ExprCode.pushArguments values
          ExprCode.emitCall .callVirt .callVirtVoid [object, .immediate (.method sym.index)] into
            (k.first.typeOf e.id)
        else
          ExprCode.pushArguments (object :: values)
          ExprCode.emitCall .call .callVoid [.immediate (.method sym.index)] into
            (k.first.typeOf e.id)) (do
      if sym.isStatic then
        ExprCode.pushArguments (← ExprCode.arguments args')
        ExprCode.emitCall .call .callVoid [.immediate (.method sym.index)] into (k.second.typeOf e.id)
      else
        let object ← pin (← c'.receiver) (args'.map (·.expr))
        let values ← ExprCode.arguments args'
        if sym.isVirtual then
          ExprCode.pushArguments values
          ExprCode.emitCall .callVirt .callVirtVoid [object, .immediate (.method sym.index)] into
            (k.second.typeOf e.id)
        else
          ExprCode.pushArguments (object :: values)
          ExprCode.emitCall .call .callVoid [.immediate (.method sym.index)] into
            (k.second.typeOf e.id)) := by
    refine .ite (fun _ ↦ ?_) fun _ ↦ ?_
    · exact (built_arguments h).step fun w₁ _ _ h₁ hvs ↦
        hcall (hw.trans h₁) rfl rfl rfl rfl hvs (.cons (.free rfl) .nil)
    · refine hc.receiver.step fun w₁ _ _ h₁ hv ↦ (built_pin hv (exprs_eq h)).step fun w₂ _ _ h₂ hobject ↦
        (built_arguments h).step fun w₃ _ _ h₃ hvs ↦ .ite (fun _ ↦ ?_) fun _ ↦ ?_
      · exact hcall (hw.trans (h₁.trans (h₂.trans h₃))) rfl rfl rfl rfl hvs
          (.cons (hobject.mono h₃) (.cons (.free rfl) .nil))
      · exact hcall (hw.trans (h₁.trans (h₂.trans h₃))) rfl rfl rfl rfl (.cons (hobject.mono h₃) hvs)
          (.cons (.free rfl) .nil)
  refine .ite (fun hs ↦ ?_) fun _ ↦ hrest (.refl w)
  exact (Built.function (hsym hs)).andThen fun _ _ hw ↦ hrest hw

private theorem ofCall (e : Expr) (hc : ExprBuilt k own c c') (h : List.Forall₂ (ExprBuilt k own) args args')
    (hcallee : ∀ f ∈ k.symbols.implicitMethod c.expr.id, k.allowed f.1 f.2) :
    ExprBuilt k own (.ofCall k.first e c args) (.ofCall k.second e c' args') := by
  refine ofValue e fun into hinto ↦ ?_
  have hsymbol : k.second.symbol? c'.expr.id = k.first.symbol? c.expr.id := by
    rw [← hc.expr]
    rfl
  rw [hsymbol]
  cases hsym : (k.first.symbol? c.expr.id).filter (·.kind == .method) with
  | some sym =>
    refine built_callMethod e sym hc h hinto fun himplicit ↦ hcallee (sym.index, sym.name) ?_
    rw [SymbolTable.implicitMethod, show (k.symbols.symbols.get? c.expr.id).filter (·.kind == .method) =
      some sym from hsym]
    simp only [himplicit, if_true, List.mem_singleton]
  | none =>
    exact hc.operand.step fun w₁ _ _ h₁ hv ↦ (built_pin hv (exprs_eq h)).step fun w₂ _ _ h₂ hdelegate ↦
      (built_arguments h).step fun w₃ _ _ h₃ hvs ↦ (built_pushArguments hvs (.refl _)).andThen fun w₄ _ h₄ ↦
      built_emitCall rfl rfl rfl rfl (.cons (hdelegate.mono (h₃.trans h₄)) .nil)
        (hinto.later ((h₁.trans h₂).trans (h₃.trans h₄))) _

private theorem ofNew (e : Expr) (ty : Ty) (ctor : Option CtorRef)
    (h : List.Forall₂ (ExprBuilt k own) args args')
    (hctor : ∀ f ∈ CtorRef.implicitConstructor ctor ty, k.allowed f.1 f.2) :
    ExprBuilt k own (.ofNew k.first e ty ctor args) (.ofNew k.second e ty ctor args') := by
  refine ofValue e @fun near _ into hinto ↦
    (built_apply rfl rfl (.cons (.free rfl) .nil) hinto ty).step fun w₁ dst dst' _ hdst ↦ ?_
  cases ctor with
  | none => exact .pure fun _ hw ↦ hdst.mono hw
  | some ctor =>
    have hrest {w' : Stock} (hw : w₁.Within w') : Built k own near [] w' (Fits k own) (do
        ExprCode.pushArguments (← ExprCode.arguments args)
        emit .callVirtVoid [dst, .immediate (.method ctor.index)]
        return dst) (do
        ExprCode.pushArguments (← ExprCode.arguments args')
        emit .callVirtVoid [dst', .immediate (.method ctor.index)]
        return dst') :=
      (built_arguments h).step fun w₂ _ _ h₂ hvs ↦ (built_pushArguments hvs (.refl _)).andThen fun w₃ _ h₃ ↦
        (Built.use rfl rfl (.cons (hdst.mono (hw.trans (h₂.trans h₃))) (.cons (.free rfl) .nil))).andThen
        fun w₄ _ h₄ ↦ .pure fun _ h₅ ↦ hdst.mono (hw.trans ((h₂.trans h₃).trans (h₄.trans h₅)))
    refine .ite (fun himplicit ↦ ?_) fun _ ↦ hrest (.refl w₁)
    simp only [CtorRef.implicitConstructor, himplicit, if_true] at hctor
    exact (Built.function (hctor _ List.mem_cons_self)).andThen fun _ _ hw ↦ hrest hw

/-! #### Arrays, tables and types -/

private theorem ofNewArray (e : Expr) (h : ExprBuilt k own c c') :
    ExprBuilt k own (.ofNewArray k.first e c) (.ofNewArray k.second e c') :=
  ofValue e fun _ hinto ↦ h.operand.step fun _ _ _ hw hv ↦
    built_apply rfl rfl (.cons hv .nil) (hinto.later hw) _

private theorem built_literalValues (ty : Ty) (h : List.Forall₂ (ExprBuilt k own) args args') :
    Built k own near [] w (Alike fun _ vs ↦ Value.anyItemHasLabel vs = false)
      (ExprCode.literalValues ty args) (ExprCode.literalValues ty args') := by
  induction h generalizing w with
  | nil => exact .pure fun _ _ ↦ ⟨rfl, rfl⟩
  | cons harg _ ih =>
    unfold ExprCode.literalValues
    rw [← harg.expr]
    split
    · exact ih
    · refine (built_literalValue _ _ _).next fun _ v _ hv ↦ ih.next fun _ vs _ hvs ↦
        .pure fun _ _ ↦ ⟨rfl, ?_⟩
      show (v.hasLabel || Value.anyItemHasLabel vs) = false
      rw [hv, hvs]
      rfl

private theorem built_storeItems (hdst : dst.Fits k own w a') (h : List.Forall₂ (ExprBuilt k own) args args')
    (position : Nat) : Built k own near [] w Any (ExprCode.storeItems dst position args)
      (ExprCode.storeItems a' position args') := by
  induction h generalizing w position with
  | nil => exact .done
  | cons harg _ ih =>
    exact harg.operand.step fun _ _ _ h₁ hv ↦
      (Built.use rfl rfl (.cons (hdst.mono h₁) (.cons (.free rfl) (.cons hv .nil)))).andThen fun _ _ h₂ ↦
      ih (hdst.mono (h₁.trans h₂)) _

private theorem all_literal_eq (h : List.Forall₂ (ExprBuilt k own) args args') :
    args.all (·.expr.literal?.isSome) = args'.all (·.expr.literal?.isSome) := by
  induction h with
  | nil => rfl
  | cons harg _ ih => rw [List.all_cons, List.all_cons, harg.expr, ih]

private theorem ofArrayLiteral (e : Expr) (elem : Ty) (h : List.Forall₂ (ExprBuilt k own) args args') :
    ExprBuilt k own (.ofArrayLiteral k.first e elem args) (.ofArrayLiteral k.second e elem args') := by
  refine ofValue e fun into hinto ↦ ?_
  rw [h.length_eq]
  refine .iteOf (all_literal_eq h) (fun _ ↦ ?_) fun _ ↦ ?_
  · refine (built_literalValues elem h).next fun w₁ vs h₁ hvs ↦ ?_
    have hitems : (Value.array elem vs).hasLabel = false := hvs
    exact (Built.literal rfl hitems).step fun w₂ _ _ h₂ ha ↦ built_deliver ha (hinto.later (h₁.trans h₂)) _
  · exact (built_apply rfl rfl (.cons (.free rfl) .nil) hinto _).step fun _ _ _ _ hdst ↦
      (built_storeItems hdst h 0).andThen fun _ _ h₁ ↦ .pure fun _ h₂ ↦ hdst.mono (h₁.trans h₂)

private theorem anyEntryHasLabel_insertEntry {key value : Value} {entries : List (Value × Value)}
    (hk : key.hasLabel = false) (hv : value.hasLabel = false)
    (h : Value.anyEntryHasLabel entries = false) :
    Value.anyEntryHasLabel (Value.insertEntry key value entries) = false := by
  induction entries with
  | nil => simp [Value.insertEntry, Value.anyEntryHasLabel, hk, hv]
  | cons e rest ih =>
    obtain ⟨k, v⟩ := e
    rw [Value.anyEntryHasLabel, Bool.or_eq_false_iff, Bool.or_eq_false_iff] at h
    rw [Value.insertEntry]
    split
    · rw [Value.anyEntryHasLabel, h.1.1, hv, h.2]
      rfl
    · rw [Value.anyEntryHasLabel, h.1.1, h.1.2, ih h.2]
      rfl

/-- The codes of the keys and of the values are built from the steps of expressions. -/
abbrev EntriesBuilt (k : Setting) (own : Nat → Prop) :
    List (ExprCode × ExprCode) → List (ExprCode × ExprCode) → Prop :=
  List.Forall₂ fun c c' ↦ ExprBuilt k own c.1 c'.1 ∧ ExprBuilt k own c.2 c'.2

private theorem built_literalEntries (key value : Ty) (h : EntriesBuilt k own entries entries')
    {table : List (Value × Value)} (htable : Value.anyEntryHasLabel table = false) :
    Built k own near [] w (Alike fun _ es ↦ Value.anyEntryHasLabel es = false)
      (ExprCode.literalEntries key value table entries)
      (ExprCode.literalEntries key value table entries') := by
  induction h generalizing w table with
  | nil => exact .pure fun _ _ ↦ ⟨rfl, htable⟩
  | cons hentry _ ih =>
    unfold ExprCode.literalEntries
    rw [← hentry.1.expr, ← hentry.2.expr]
    split
    · exact (built_literalValue _ _ _).next fun _ _ _ hk ↦ (built_literalValue _ _ _).next fun _ _ _ hv ↦
        ih (anyEntryHasLabel_insertEntry hk hv htable)
    · exact ih htable

private theorem built_storeEntries (hdst : dst.Fits k own w a') (h : EntriesBuilt k own entries entries') :
    Built k own near [] w Any (ExprCode.storeEntries dst entries)
      (ExprCode.storeEntries a' entries') := by
  induction h generalizing w with
  | nil => exact .done
  | cons hentry _ ih =>
    exact (built_operands hentry.1 hentry.2).step fun _ _ _ h₁ has ↦
      (Built.use rfl rfl (.cons (hdst.mono h₁) has)).andThen fun _ _ h₂ ↦ ih (hdst.mono (h₁.trans h₂))

private theorem all_literal_entries_eq (h : EntriesBuilt k own entries entries') :
    (entries.all fun x ↦ x.1.expr.literal?.isSome && x.2.expr.literal?.isSome) =
      entries'.all fun x ↦ x.1.expr.literal?.isSome && x.2.expr.literal?.isSome := by
  induction h with
  | nil => rfl
  | cons hentry _ ih => rw [List.all_cons, List.all_cons, hentry.1.expr, hentry.2.expr, ih]

private theorem ofTableLiteral (e : Expr) (key value : Ty) (h : EntriesBuilt k own entries entries') :
    ExprBuilt k own (.ofTableLiteral k.first e key value entries)
      (.ofTableLiteral k.second e key value entries') := by
  refine ofValue e fun into hinto ↦ ?_
  refine .iteOf (all_literal_entries_eq h) (fun _ ↦ ?_) fun _ ↦ ?_
  · refine (built_literalEntries key value h rfl).next fun w₁ es h₁ hes ↦ ?_
    have htable : (Value.table key value es).hasLabel = false := hes
    exact (Built.literal rfl htable).step fun w₂ _ _ h₂ ha ↦ built_deliver ha (hinto.later (h₁.trans h₂)) _
  · exact (built_apply rfl rfl .nil hinto _).step fun _ _ _ _ hdst ↦
      (built_storeEntries hdst h).andThen fun _ _ h₁ ↦ .pure fun _ h₂ ↦ hdst.mono (h₁.trans h₂)

private theorem ofCast (e : Expr) (ty : Ty) (h : ExprBuilt k own c c') :
    ExprBuilt k own (.ofCast k.first e ty c) (.ofCast k.second e ty c') := by
  refine ofValue e fun into hinto ↦ ?_
  rw [h.ty_eq]
  exact .ite (fun _ ↦ h.value into hinto) fun _ ↦ h.operand.step fun _ _ _ hw hv ↦
    built_apply rfl rfl (.cons hv (.cons (.free rfl) .nil)) (hinto.later hw) ty

private theorem ofTypeTest (e : Expr) (hop : op.isStraight = true) (hout : op.output = .write)
    (h : ExprBuilt k own c c') (ty : Ty) :
    ExprBuilt k own (.ofTypeTest k.first e op c ty) (.ofTypeTest k.second e op c' ty) :=
  ofValue e fun _ hinto ↦ h.operand.step fun _ _ _ hw hv ↦
    built_apply hop hout (.cons hv (.cons (.free rfl) .nil)) (hinto.later hw) _

private theorem ofTypeOf (e : Expr) (ty : Ty) :
    ExprBuilt k own (.ofTypeOf k.first e ty) (.ofTypeOf k.second e ty) :=
  ofValue e fun _ hinto ↦ built_apply rfl rfl (.cons (.free rfl) .nil) hinto _

end ExprBuilt

mutual

/-- The code of an expression is built from the steps of expressions. -/
theorem exprBuilt (k : Setting) (own : Nat → Prop) : (e : Expr) →
    (∀ f ∈ e.callees k.symbols, k.allowed f.1 f.2) →
    ExprBuilt k own (exprCode k.first e) (exprCode k.second e)
  | .literal _ value, _ => .ofLiteral _ value
  | .name _ name, _ => .ofName _ name
  | .this _, _ => .ofThis _
  | .unary _ op a, h => .ofUnary _ op (exprBuilt k own a h)
  | .binary _ op a b, h => by
    rw [Expr.callees, List.forall_mem_append] at h
    exact .ofBinary _ op (exprBuilt k own a h.1) (exprBuilt k own b h.2)
  | .logical _ op a b, h => by
    rw [Expr.callees, List.forall_mem_append] at h
    exact .ofLogical _ op (exprBuilt k own a h.1) (exprBuilt k own b h.2)
  | .assign _ target op value, h => by
    rw [Expr.callees, List.forall_mem_append] at h
    exact .ofAssign _ op (exprBuilt k own target h.1) (exprBuilt k own value h.2)
  | .incDec _ target increment first, h => .ofIncDec _ increment first (exprBuilt k own target h)
  | .conditional _ c a b, h => by
    rw [Expr.callees, List.forall_mem_append, List.forall_mem_append] at h
    exact .ofConditional _ (exprBuilt k own c h.1.1) (exprBuilt k own a h.1.2) (exprBuilt k own b h.2)
  | .member _ object name, h => .ofMember _ (exprBuilt k own object h) name
  | .index _ object key, h => by
    rw [Expr.callees, List.forall_mem_append] at h
    exact .ofIndex _ (exprBuilt k own object h.1) (exprBuilt k own key h.2)
  | .call _ callee args, h => by
    rw [Expr.callees, List.forall_mem_append, List.forall_mem_append] at h
    exact .ofCall _ (exprBuilt k own callee h.1.2) (exprsBuilt k own args h.2)
      (by rw [expr_exprCode]; exact h.1.1)
  | .new _ ty ctor args, h => by
    rw [Expr.callees, List.forall_mem_append] at h
    exact .ofNew _ ty ctor (exprsBuilt k own args h.2) h.1
  | .newArray _ _ len, h => .ofNewArray _ (exprBuilt k own len h)
  | .arrayLiteral _ elem items, h => .ofArrayLiteral _ elem (exprsBuilt k own items h)
  | .tableLiteral _ key value entries, h => .ofTableLiteral _ key value (entriesBuilt k own entries h)
  | .cast _ ty a, h => .ofCast _ ty (exprBuilt k own a h)
  | .is _ a ty, h => .ofTypeTest _ rfl rfl (exprBuilt k own a h) ty
  | .as _ a ty, h => .ofTypeTest _ rfl rfl (exprBuilt k own a h) ty
  | .typeOf _ ty, _ => .ofTypeOf _ ty
  | .unsupported _ _, _ => .ofValue _ fun _ _ ↦ .fail _

/-- The codes of some expressions are built from the steps of expressions. -/
theorem exprsBuilt (k : Setting) (own : Nat → Prop) : (es : List Expr) →
    (∀ f ∈ Expr.calleesOf k.symbols es, k.allowed f.1 f.2) →
    List.Forall₂ (ExprBuilt k own) (exprCodes k.first es) (exprCodes k.second es)
  | [], _ => .nil
  | e :: rest, h => by
    rw [Expr.calleesOf, List.forall_mem_append] at h
    exact .cons (exprBuilt k own e h.1) (exprsBuilt k own rest h.2)

/-- The codes of some entries are built from the steps of expressions. -/
theorem entriesBuilt (k : Setting) (own : Nat → Prop) : (es : List (Expr × Expr)) →
    (∀ f ∈ Expr.calleesOfEntries k.symbols es, k.allowed f.1 f.2) →
    ExprBuilt.EntriesBuilt k own (entryCodes k.first es) (entryCodes k.second es)
  | [], _ => .nil
  | (key, value) :: rest, h => by
    rw [Expr.calleesOfEntries, List.forall_mem_append, List.forall_mem_append] at h
    exact .cons ⟨exprBuilt k own key h.1.1, exprBuilt k own value h.1.2⟩ (entriesBuilt k own rest h.2)

end

end Lowering

end MethodCompiler
