import MethodCompiler.Proofs.ExpressionSteps
import MethodCompiler.Proofs.LexicalScopes

/-!
# The steps of statement code

Running a statement takes the steps of its expressions and a few kinds besides: scopes are opened and
closed, locals and constants get their names, control leaves by exits and jumps, and constructs are put
together from their parts. `Steps` lists them, with the labels that control may go to and the registers that
hold values of constructs around. Like `Built` it speaks of two runs side by side; the second one tells of
the scopes that it closes. What each kind of step keeps, the code of every statement keeps, by one induction
over `Steps`.
-/

namespace MethodCompiler

namespace Lowering

/-! ### Places in a method -/

/-- Where in a method a step stands. -/
structure Spot where
  /-- The labels that any branch may go to: control is in the same part of the same region there. -/
  near : List String
  /-- Other labels that a plain jump may go to. -/
  jumps : List String
  /-- The labels that `break` and `continue` go to, and how many scopes stay open there. -/
  far : List (String × Nat)
  /-- The step belongs to a catch clause. -/
  caught : Bool
  /-- The number of open scopes. -/
  depth : Nat
  far_le : ∀ e ∈ far, e.2 ≤ depth

namespace Spot

/-- The step is the whole code of a method. -/
def top : Spot :=
  { near := [], jumps := [], far := [], caught := false, depth := 0, far_le := List.forall_mem_nil _ }

/-- Some labels are defined behind the step. -/
def ahead (x : Spot) (labels : List String) : Spot := { x with near := labels ++ x.near }

/-- One more scope is open, which is left for no label of a construct around it but by `break` and
`continue`. -/
def scope (x : Spot) : Spot :=
  { x with
    near := []
    jumps := []
    depth := x.depth + 1
    far_le := fun e he ↦ Nat.le_succ_of_le (x.far_le e he) }

/-- Control goes nowhere but on. -/
def alone (x : Spot) : Spot :=
  { x with near := [], jumps := [], far := [], far_le := List.forall_mem_nil _ }

/-- Control goes to labels of a loop only. -/
def loop (x : Spot) (labels : List String) : Spot :=
  { x with near := labels, jumps := [], far := [], far_le := List.forall_mem_nil _ }

/-- The step stands in a construct that `break` leaves for a label, and `continue` too if it is a loop. -/
def inside (x : Spot) (breakLabel : String) (continueLabel : Option String) : Spot :=
  { x with
    far := continueLabel.elim ((breakLabel, x.depth) :: x.far) fun l ↦ [(breakLabel, x.depth), (l, x.depth)]
    far_le := by
      cases continueLabel with
      | none => exact List.forall_mem_cons.mpr ⟨Nat.le_refl _, x.far_le⟩
      | some l =>
        exact List.forall_mem_cons.mpr ⟨Nat.le_refl _, List.forall_mem_singleton.mpr (Nat.le_refl _)⟩ }

/-- The step stands in a protected body. -/
def body (x : Spot) : Spot := { x with near := [], jumps := [] }

/-- The step stands in a handler, which goes on behind the construct. -/
def handler (x : Spot) (endLabel : String) : Spot :=
  { x with near := [], jumps := [endLabel], caught := true }

/-- The step stands in a cleanup. A sealed one is not left by jumps. -/
def cleanup (x : Spot) (sealed : Bool) : Spot :=
  { x with
    near := []
    jumps := []
    far := if sealed then [] else x.far
    far_le := by
      cases sealed with
      | true => exact List.forall_mem_nil _
      | false => exact x.far_le }

end Spot

/-! ### The description of steps -/

/-- Statements that control does not run past, and that go to no label. An exception is thrown again only
where it has been caught. -/
inductive Exit : Bool → Statement → Prop
  | ret {caught : Bool} : Exit caught (.of .ret [])
  | trap {caught : Bool} : Exit caught
      { op := .trap, operands := [.immediate (.string "illegal fallthrough")], synthetic := true }
  | rethrow : Exit true (.of .rethrow [])

/-- The step leaves code that control does not run past. -/
def Ends (act : Lower Unit) : Prop := ∀ st u st', act st = .ok u st' → Closed st'.bare

/-- The label of a phase that a protected construct may have. -/
def phaseLabel (present : Bool) (n : Nat) (part : String) : Option String :=
  if present then some (labelName "try" n part) else none

/-- A step of a statement, in two runs. It stands at the given spot, where some registers are held for it,
and defines the labels `defs`. -/
inductive Steps (k : Setting) : Spot → List Nat → List String → Lower Unit → Recorded Unit → Prop
  | pure {x : Spot} {held : List Nat} : Steps k x held [] (Pure.pure ()) (Pure.pure ())
  | fail {x : Spot} {held : List Nat} {defs : List String} (e : Error) :
      Steps k x held defs (Lowering.fail e) (Recorded.lift (Lowering.fail e))
  /-- One step after another. The first may go to labels that the second defines. -/
  | seq {x : Spot} {held : List Nat} {defs defs' : List String} {a b : Lower Unit} {a' b' : Recorded Unit} :
      Steps k (x.ahead defs') held defs a a' → Steps k x held defs' b b' →
      Steps k x held (defs ++ defs') (a >>= fun _ ↦ b) (a' >>= fun _ ↦ b')
  | built {x : Spot} {held : List Nat} {defs : List String} {act act' : Lower Unit} :
      (∀ own n, (∀ r ∈ held, own r ∧ r < n) → Built k own x.near defs ⟨n, []⟩ Any act act') →
      Steps k x held defs act (Recorded.lift act')
  /-- A value is thrown. No register that is held has a part in it. -/
  | throw {x : Spot} {held : List Nat} {act act' : Lower Operand} :
      (∀ own n, Built k own x.near [] ⟨n, []⟩ (Operand.Fits k own) act act') →
      Steps k x held [] (act >>= fun v ↦ emit .throw [v])
        (Recorded.lift (act' >>= fun v ↦ emit .throw [v]))
  | exit {x : Spot} {held : List Nat} {s : Statement} : Exit x.caught s →
      Steps k x held [] (emitStatement s) (Recorded.lift (emitStatement s))
  | jump {x : Spot} {held : List Nat} {l : String} : l ∈ x.jumps →
      Steps k x held [] (emitJump l) (Recorded.lift (emitJump l))
  | jumpOut {x : Spot} {held : List Nat} {l : String} {depth : Nat} : (l, depth) ∈ x.far →
      Steps k x held [] (jumpOut k.first l depth) (Recorded.lift (jumpOut k.second l depth))
  | ifReachable {x : Spot} {held : List Nat} {act act' : Lower Unit} :
      Steps k x held [] act (Recorded.lift act') →
      Steps k x held [] (ifReachable act) (Recorded.lift (ifReachable act'))
  | annotate {x : Spot} {held : List Nat} (comment : String) :
      Steps k x held [] (annotate k.first comment) (Recorded.lift (annotate k.second comment))
  /-- A register is taken and held for what follows. -/
  | register {x : Spot} {held : List Nat} {defs : List String} {ty : Ty} {f : Operand → Lower Unit}
      {f' : Operand → Recorded Unit} :
      (∀ r, Steps k x (r :: held) defs (f (.register r ty)) (f' (.register r ty))) →
      Steps k x held defs (newRegister ty >>= f) (Recorded.lift (newRegister ty) >>= f')
  /-- A local is declared, and its register held for what follows. -/
  | declare {x : Spot} {held : List Nat} {defs : List String} {name : String} {ty : Ty}
      {init : Nat → Lower Unit} {init' : Nat → Recorded Unit} {f : Operand → Lower Unit}
      {f' : Operand → Recorded Unit} : 0 < x.depth →
      (∀ r, Steps k x.alone (r :: held) [] (init r) (init' r)) →
      (∀ r, Steps k x (r :: held) defs (f (.register r ty)) (f' (.register r ty))) →
      Steps k x held defs (declareLocal name ty init >>= f) (declareLocal name ty init' >>= f')
  | constant {x : Spot} {held : List Nat} {name : String} {v : Value} : 0 < x.depth →
      v.hasLabel = false →
      Steps k x held [] (bindName name (.constant v)) (Recorded.lift (bindName name (.constant v)))
  | scope {x : Spot} {held : List Nat} {defs : List String} {act : Lower Unit} {act' : Recorded Unit} :
      Steps k x.scope held defs act act' →
      Steps k x held defs (inScope k.first act) (recordScope k.second act')
  | construct {x : Spot} {held : List Nat} {f : Nat → Lower Unit} {f' : Nat → Recorded Unit}
      (kind : String) (parts : List String) : PlainParts kind parts →
      (∀ n, Steps k x held (parts.map (labelName kind n)) (f n) (f' n)) →
      Steps k x held [] (newConstruct >>= f) (Recorded.lift newConstruct >>= f')
  /-- A loop goes to its own labels only. -/
  | loop {x : Spot} {held : List Nat} {labels : List String} {act : Lower Unit} {act' : Recorded Unit} :
      Steps k (x.loop labels) held labels act act' → Steps k x held labels act act'
  | inside {x : Spot} {held : List Nat} {defs : List String} {env : Surroundings} {breakLabel : String}
      {continueLabel : Option String} {act : Surroundings → Lower Unit}
      {act' : Surroundings → Recorded Unit} : breakLabel ∈ x.near →
      (∀ l ∈ continueLabel, l ∈ x.near) →
      Steps k (x.inside breakLabel continueLabel) held defs
        (act { env with targets := ⟨breakLabel, continueLabel, x.depth⟩ :: env.targets })
        (act' { env with targets := ⟨breakLabel, continueLabel, x.depth⟩ :: env.targets }) →
      Steps k x held defs (inside env breakLabel continueLabel act)
        (inside env breakLabel continueLabel act')
  | protect {x : Spot} {held : List Nat} {body cleanup : Lower Unit} {body' cleanup' : Recorded Unit}
      {handler : Nat → Lower Unit} {handler' : Nat → Recorded Unit} (handled cleaned : Bool)
      (clauses : List String) : PlainParts "try" ("end" :: clauses) →
      (k.strictness ≠ .loose → handled = true ∨ cleaned = true) →
      (handled = false → clauses = []) →
      Steps k x.body held [] body body' →
      (∀ n, Steps k (x.handler (labelName "try" n "end")) held (clauses.map (labelName "try" n)) (handler n)
        (handler' n)) →
      (handled = true → ∀ n, Ends (handler' n).run) →
      Steps k (x.cleanup (k.strictness == .sealed)) held [] cleanup cleanup' →
      Steps k x held []
        (newConstruct >>= fun n ↦ protectedSteps (phaseLabel handled n "catch")
          (phaseLabel cleaned n "finally")
          (labelName "try" n "end") body (handler n) cleanup)
        (Recorded.lift newConstruct >>= fun n ↦ protectedSteps (phaseLabel handled n "catch")
          (phaseLabel cleaned n "finally") (labelName "try" n "end") body' (handler' n) cleanup')

variable {k : Setting} {x : Spot} {held : List Nat} {defs : List String} {a b act : Lower Unit}
  {a' b' : Recorded Unit} {env : Surroundings} {breaks continues : Bool} {own : Nat → Prop}
  {near : List String} {w : Stock}

namespace Steps

/-- One step after another, where the first defines no labels. -/
theorem step (h : Steps k (x.ahead defs) held [] a a') (h' : Steps k x held defs b b') :
    Steps k x held defs (a >>= fun _ ↦ b) (a' >>= fun _ ↦ b') := h.seq h'

/-- A label. -/
theorem label (l : String) : Steps k x held [l] (emitLabel l) (Recorded.lift (emitLabel l)) :=
  .built fun _ _ _ ↦ .label l

/-- A label comes first. -/
theorem labelled {l : String} (h : Steps k x held defs b b') :
    Steps k x held (l :: defs) (emitLabel l >>= fun _ ↦ b) (Recorded.lift (emitLabel l) >>= fun _ ↦ b') :=
  (label l).seq h

/-- Expression code that uses no register that is held. -/
theorem apart {act act' : Lower Unit} (h : ∀ own n, Built k own x.near defs ⟨n, []⟩ Any act act') :
    Steps k x held defs act (Recorded.lift act') := .built fun own n _ ↦ h own n

/-- A choice that the two runs make alike. -/
theorem ite {c : Prop} [Decidable c] (h : c → Steps k x held defs a a') (h' : ¬c → Steps k x held defs b b') :
    Steps k x held defs (if c then a else b) (if c then a' else b') := by
  by_cases hc : c
  · rw [if_pos hc, if_pos hc]
    exact h hc
  · rw [if_neg hc, if_neg hc]
    exact h' hc

/-- A jump to a label that is near, from where control can be. -/
theorem jumpOn {l : String} (h : l ∈ x.near) :
    Steps k x held [] (emitJumpIfReachable l) (Recorded.lift (emitJumpIfReachable l)) :=
  .ifReachable (.apart fun _ _ ↦ .jump h)

end Steps

private theorem writable_of_held {r n : Nat} {ty : Ty} (h : ∀ r ∈ held, own r ∧ r < n) (hr : r ∈ held) :
    (Operand.register r ty).Writable own n := h r hr

/-! ### Expressions in statements -/

section Expressions

variable {e : Expr}

private theorem built_runAll {es : List Expr}
    (h : ∀ f ∈ Expr.calleesOf k.symbols es, k.allowed f.1 f.2) :
    Built k own near [] w Any (runAll k.first es) (runAll k.second es) := by
  induction es generalizing w with
  | nil => exact .done
  | cons e rest ih =>
    rw [Expr.calleesOf, List.forall_mem_append] at h
    exact (exprBuilt k own e h.1).run.andThen fun _ _ _ ↦ ih h.2

private theorem built_branchUnless {l : String} (hl : l ∈ near) {cond : Option Expr}
    (h : ∀ f ∈ cond.elim [] (·.callees k.symbols), k.allowed f.1 f.2) :
    Built k own near [] w Any (branchUnless k.first l cond) (branchUnless k.second l cond) := by
  cases cond with
  | none => exact .done
  | some cond => exact (exprBuilt k own cond h).branch false hl

private theorem built_storeResult {value : Option Expr}
    (h : ∀ f ∈ value.elim [] (·.callees k.symbols), k.allowed f.1 f.2) :
    Built k own near [] w Any (storeResult k.first value) (storeResult k.second value) := by
  cases value with
  | none => exact .done
  | some e =>
    refine (exprBuilt k own e h).operand.step fun w₁ v v' _ hv ↦ ?_
    have hslot : (Operand.input 0 k.method.returnTy).Writable own w₁.registers := trivial
    exact .rebind hslot hv

private theorem steps_lowerInitial (name : String) (ty : Ty) {r : Nat} {init : Option Expr}
    (h : ∀ f ∈ init.elim [] (·.callees k.symbols), k.allowed f.1 f.2) :
    Steps k x (r :: held) [] (lowerInitial k.first name ty r init)
      (lowerInitial k.second name ty r init) := by
  cases init with
  | none => exact .pure
  | some e =>
    refine .step (.built fun own n hown ↦ ?_) (.annotate _)
    have hr : (Operand.register r ty).Writable own n := hown r List.mem_cons_self
    exact ((exprBuilt k own e h).value _ (offered_some hr)).dropped

private theorem steps_lowerConstant (hdepth : 0 < x.depth) (span : Span) (name : String) (ty : Ty)
    (init : Option Expr) :
    Steps k x held [] (lowerConstant span name ty init)
      (Recorded.lift (lowerConstant span name ty init)) := by
  unfold lowerConstant
  cases init.bind Expr.literal? with
  | none => exact .fail _
  | some lit =>
    dsimp only
    cases hv : literalValue lit ty span with
    | ok v => exact .constant hdepth (ExprBuilt.hasLabel_literalValue hv)
    | error e => exact .fail e

private theorem steps_lowerDeclare (hdepth : 0 < x.depth) (span : Span) (name : String) (ty : Ty)
    {init : Option Expr} (isConst : Bool)
    (h : ∀ f ∈ init.elim [] (·.callees k.symbols), k.allowed f.1 f.2) :
    Steps k x held [] (lowerDeclare k.first span name ty init isConst)
      (lowerDeclare k.second span name ty init isConst) := by
  cases isConst with
  | true => exact steps_lowerConstant hdepth span name ty init
  | false => exact .declare hdepth (fun _ ↦ steps_lowerInitial name ty h) fun _ ↦ .pure

private theorem steps_lowerReturn {value : Option Expr}
    (h : ∀ f ∈ value.elim [] (·.callees k.symbols), k.allowed f.1 f.2) :
    Steps k x held [] (lowerReturn k.first value) (lowerReturn k.second value) :=
  .step (.apart fun _ _ ↦ built_storeResult h) (.exit .ret)

private theorem steps_lowerThrow (hcaught : env.inCatch = true → x.caught = true) (span : Span)
    {value : Option Expr} (h : ∀ f ∈ value.elim [] (·.callees k.symbols), k.allowed f.1 f.2) :
    Steps k x held [] (lowerThrow k.first env span value)
      (Recorded.lift (lowerThrow k.second env span value)) := by
  cases value with
  | some e => exact .throw fun own _ ↦ (exprBuilt k own e h).operand
  | none =>
    unfold lowerThrow
    cases hin : env.inCatch with
    | false => exact .fail _
    | true =>
      have hexit : Exit x.caught (.of .rethrow []) := by
        rw [hcaught hin]
        exact .rethrow
      exact .exit hexit

end Expressions

/-! ### Numbered parts -/

private theorem numbered_injective (word : String) : Function.Injective fun i : Nat ↦ word ++ toString i := by
  intro i j h
  have h : toString i = toString j := (String.append_right_inj word).mp h
  have hdigits : Nat.toDigits 10 i = Nat.toDigits 10 j := by
    simpa using congrArg String.toList h
  have := congrArg (Nat.ofDigitChars 10 · 0) hdigits
  simpa [Nat.ofDigitChars_toDigits] using this

private theorem numbered_ne {word other : String} (h : ¬word.toList <+: other.toList) (i : Nat) :
    word ++ toString i ≠ other := by
  rintro rfl
  exact h ⟨(toString i).toList, String.toList_append.symm⟩

private theorem isPlainPart_numbered {word : String} (h : word.toList.all (· != '_') = true)
    (hcatch : ¬word.toList <+: "catch".toList) (hfinally : ¬word.toList <+: "finally".toList)
    (i : Nat) : isPlainPart (word ++ toString i) = true := by
  have hdigits : (toString i).toList.all (· != '_') = true := by
    refine List.all_eq_true.mpr fun c hc ↦ bne_iff_ne.mpr ?_
    rintro rfl
    simp at hc
  rw [isPlainPart, String.toList_append, List.all_append, h, hdigits,
    bne_iff_ne.mpr (numbered_ne hcatch i), bne_iff_ne.mpr (numbered_ne hfinally i)]
  rfl

/-- Parts with a number are plain, and differ from the end. -/
private theorem plainParts_numbered {kind word : String} (hkind : kind.toList.all (!·.isDigit) = true)
    (h : word.toList.all (· != '_') = true) (hcatch : ¬word.toList <+: "catch".toList)
    (hfinally : ¬word.toList <+: "finally".toList) (hend : ¬word.toList <+: "end".toList) {numbers : List Nat}
    (hnodup : numbers.Nodup) : PlainParts kind ("end" :: numbers.map fun i ↦ word ++ toString i) where
  kind := hkind
  nodup := by
    refine List.nodup_cons.mpr ⟨fun hmem ↦ ?_, hnodup.map (numbered_injective word)⟩
    obtain ⟨i, -, hi⟩ := List.mem_map.mp hmem
    exact numbered_ne hend i hi
  plain := by
    refine List.forall_mem_cons.mpr ⟨by decide, List.forall_mem_map.mpr fun i _ ↦ ?_⟩
    exact isPlainPart_numbered h hcatch hfinally i

/-! ### Switches -/

/-- The labels of a switch: of its sections, and of its end. -/
private def switchLabels (n : Nat) (sections : List SwitchSection) : List String :=
  (List.range' 0 sections.length).map (caseLabel n) ++ [labelName "switch" n "end"]

/-- The parts of a switch that have labels. -/
private def switchParts (sections : List SwitchSection) : List String :=
  (List.range' 0 sections.length).map (fun i ↦ "case" ++ toString i) ++ ["end"]

private theorem map_switchParts (n : Nat) (sections : List SwitchSection) :
    (switchParts sections).map (labelName "switch" n) = switchLabels n sections := by
  rw [switchParts, switchLabels, List.map_append, List.map_map]
  rfl

private theorem plainParts_switch (sections : List SwitchSection) :
    PlainParts "switch" (switchParts sections) := by
  have h : PlainParts "switch" ("end" :: (List.range' 0 sections.length).map fun i ↦ "case" ++ toString i) :=
    plainParts_numbered (by decide) (by decide) (by decide) (by decide) (by decide) (List.nodup_range' 1)
  have hperm := List.perm_append_singleton "end" ((List.range' 0 sections.length).map fun i ↦
    "case" ++ toString i)
  exact ⟨h.kind, hperm.nodup_iff.mpr h.nodup, fun part hpart ↦ h.plain part (hperm.mem_iff.mp hpart)⟩

private theorem target_of_switchCases {n i : Nat} {sections : List SwitchSection} {l : String}
    (h : l ∈ (switchCases n i sections).map (·.2)) :
    l ∈ (List.range' i sections.length).map (caseLabel n) := by
  induction sections generalizing i with
  | nil => cases h
  | cons s rest ih =>
    rw [switchCases, List.map_append, List.mem_append] at h
    rw [List.length_cons, List.range'_succ, List.map_cons]
    rcases h with h | h
    · obtain ⟨_, hc, rfl⟩ := List.mem_map.mp h
      obtain ⟨_, _, rfl⟩ := List.mem_map.mp hc
      exact List.mem_cons_self
    · exact List.mem_cons_of_mem _ (ih h)

private theorem defaultLabel_mem (n : Nat) (sections : List SwitchSection) :
    defaultLabel n sections ∈ switchLabels n sections := by
  rw [defaultLabel, switchLabels, List.mem_append]
  split
  · next i hi =>
    have hlt : i < sections.length := (List.findIdx?_eq_some_iff_getElem.mp hi).1
    exact .inl (List.mem_map.mpr ⟨i, List.mem_range'_1.mpr ⟨Nat.zero_le i, by omega⟩, rfl⟩)
  · exact .inr (List.mem_singleton_self _)

/-- The entries of a jump table that leads to some labels. -/
private def LeadTo (near : List String) (entries : List (Value × Value)) : Prop :=
  ∀ e ∈ entries, e.1.hasLabel = false ∧ ∃ l ∈ near, e.2 = Value.label l

private theorem LeadTo.insertEntry {entries : List (Value × Value)} (h : LeadTo near entries) {key : Value}
    (hkey : key.hasLabel = false) {l : String} (hl : l ∈ near) :
    LeadTo near (Value.insertEntry key (.label l) entries) := by
  induction entries with
  | nil => exact List.forall_mem_singleton.mpr ⟨hkey, l, hl, rfl⟩
  | cons e rest ih =>
    obtain ⟨key', v⟩ := e
    have ⟨hfirst, hrest⟩ := List.forall_mem_cons.mp h
    rw [Value.insertEntry]
    split
    · exact List.forall_mem_cons.mpr ⟨⟨hfirst.1, l, hl, rfl⟩, hrest⟩
    · exact List.forall_mem_cons.mpr ⟨hfirst, ih hrest⟩

private theorem LeadTo.mem_near {entries : List (Value × Value)} (h : LeadTo near entries) :
    ∀ l ∈ FlowGraph.entryTargets entries, l ∈ near := by
  induction entries with
  | nil => exact List.forall_mem_nil _
  | cons e rest ih =>
    obtain ⟨⟨-, l, hl, he⟩, hrest⟩ := List.forall_mem_cons.mp h
    obtain ⟨key, v⟩ := e
    cases he
    exact List.forall_mem_cons.mpr ⟨hl, ih hrest⟩

private theorem LeadTo.isJumpTable {entries : List (Value × Value)} (h : LeadTo near entries) :
    (Value.table .string .i32 entries).IsJumpTable := by
  refine ⟨.string, .i32, entries, rfl, fun e he ↦ ?_⟩
  obtain ⟨hkey, l, -, hv⟩ := h e he
  exact ⟨hkey, l, hv⟩

private theorem built_jumpTable (span : Span) {choices : List (Literal × String)}
    (hnear : ∀ l ∈ choices.map (·.2), l ∈ near) {entries : List (Value × Value)} (h : LeadTo near entries) :
    Built k own near [] w (Alike fun _ ↦ LeadTo near) (jumpTable span entries choices)
      (jumpTable span entries choices) := by
  induction choices generalizing w entries with
  | nil => exact .pure fun _ _ ↦ ⟨rfl, h⟩
  | cons c rest ih =>
    rw [List.map_cons, List.forall_mem_cons] at hnear
    exact (ExprBuilt.built_literalValue _ _ _).next fun _ _ _ hkey ↦
      ih hnear.2 (h.insertEntry hkey hnear.1)

private theorem built_compareCases (span : Span) {v v' : Operand} (hv : v.Fits k own w v') (ty : Ty)
    {choices : List (Literal × String)} (hnear : ∀ l ∈ choices.map (·.2), l ∈ near) :
    Built k own near [] w Any (compareCases span v ty choices) (compareCases span v' ty choices) := by
  induction choices generalizing w with
  | nil => exact .done
  | cons c rest ih =>
    rw [List.map_cons, List.forall_mem_cons] at hnear
    refine (ExprBuilt.built_literalValue _ _ _).next fun w₁ case h₁ hcase ↦ ?_
    have hoperands : Operand.AllFit k own w₁ [v, .immediate case] [v', .immediate case] :=
      .cons (hv.mono h₁) (.cons (.immediate fun _ ↦ hcase) .nil)
    have hjump : Built k own near [] w₁ Any (emit .jumpEq [v, .immediate case, .label c.2])
        (emit .jumpEq [v', .immediate case, .label c.2]) := .branch rfl hoperands hnear.1
    exact hjump.andThen fun _ _ h₂ ↦ ih (hv.mono (h₁.trans h₂)) hnear.2

private theorem built_dispatch (hsecond : k.loading.second = false) {subject : Expr}
    (h : ∀ f ∈ subject.callees k.symbols, k.allowed f.1 f.2) {choices : List (Literal × String)}
    (hnear : ∀ l ∈ choices.map (·.2), l ∈ near) :
    Built k own near [] w Any (dispatch k.first subject choices) (dispatch k.second subject choices) := by
  refine (exprBuilt k own subject h).operand.step fun _ _ _ _ hv ↦ .ite (fun _ ↦ ?_) fun _ ↦ ?_
  · exact (built_jumpTable _ hnear (List.forall_mem_nil _)).next fun _ _ h₁ htable ↦
      .switch hsecond htable.isJumpTable htable.mem_near (hv.mono h₁)
  · exact built_compareCases _ hv _ hnear

private theorem steps_trapFallthrough (body : List Stmt) :
    Steps k x held [] (trapFallthrough body) (Recorded.lift (trapFallthrough body)) := by
  unfold trapFallthrough
  split
  · exact .pure
  · exact .exit .trap

/-! ### Catch clauses -/

/-- The numbers of the catch clauses that start at a label, from number `j` on. -/
private def clauseNumbers (j : Nat) (catches : List CatchClause) : List Nat :=
  (List.range' j catches.length).filter (0 < ·)

/-- The number of the place behind the clauses, if the last one tests for a type. -/
private def unmatchedNumber (catches : List CatchClause) : List Nat :=
  if catches.getLast?.any (·.ty.isSome) then [catches.length] else []

/-- The parts of a protected construct that have labels, besides its phases and its end. -/
private def clauseParts (catches : List CatchClause) : List String :=
  (clauseNumbers 0 catches ++ unmatchedNumber catches).map fun j ↦ "clause" ++ toString j

private theorem plainParts_try (catches : List CatchClause) :
    PlainParts "try" ("end" :: clauseParts catches) := by
  refine plainParts_numbered (by decide) (by decide) (by decide) (by decide) (by decide) ?_
  rw [List.nodup_append, unmatchedNumber]
  refine ⟨(List.nodup_range' 1).filter _, by split <;> simp, ?_⟩
  intro a ha b hb
  have hlt := (List.mem_range'_1.mp (List.mem_of_mem_filter ha)).2
  split at hb
  · rw [List.mem_singleton.mp hb]
    omega
  · cases hb

private theorem map_clauseParts (n : Nat) (catches : List CatchClause) :
    (clauseParts catches).map (labelName "try" n) = (clauseNumbers 0 catches).map (clauseLabel n) ++
      (unmatchedNumber catches).map (clauseLabel n) := by
  rw [clauseParts, List.map_map, List.map_append]
  rfl

private theorem map_clauseNumbers_cons (n j : Nat) (clause : CatchClause) (rest : List CatchClause) :
    (clauseNumbers j (clause :: rest)).map (clauseLabel n) =
      (if 0 < j then [clauseLabel n j] else []) ++ (clauseNumbers (j + 1) rest).map (clauseLabel n) := by
  rw [clauseNumbers, List.length_cons, List.range'_succ, List.filter_cons]
  by_cases hj : 0 < j
  · rw [if_pos hj, if_pos (decide_eq_true hj)]
    rfl
  · rw [if_neg hj, if_neg (by simpa using hj)]
    rfl

private theorem steps_startClause (n j : Nat) :
    Steps k x held (if 0 < j then [clauseLabel n j] else []) (startClause n j)
      (Recorded.lift (startClause n j)) := by
  unfold startClause
  split
  · exact .label _
  · exact .pure

private theorem built_testClause {n j : Nat} {ty : Option Ty}
    (h : ty.isSome = true → clauseLabel n (j + 1) ∈ near) :
    Built k own near [] w Any (testClause n j ty) (testClause n j ty) := by
  cases ty with
  | none => exact .done
  | some ty =>
    refine (Built.register .bool).next fun w₁ r _ hr ↦
      (Built.write rfl rfl hr (.cons (.free rfl) (.cons (.free rfl) .nil))).andThen fun w₂ _ h₂ ↦ ?_
    have hoperands : Operand.AllFit k own w₂ [r] [r] := .cons (hr.mono h₂.registers).fits .nil
    exact .branch rfl hoperands (h rfl)

private theorem steps_bindException (hdepth : 0 < x.depth) (ty : Option Ty) (var : Option String) :
    Steps k x held [] (bindException ty var) (bindException ty var) := by
  cases var with
  | none => exact .pure
  | some var =>
    refine .declare hdepth (fun _ ↦ .pure) fun r ↦ .built fun own n hown ↦ ?_
    have hr : (Operand.register r (ty.getD .object)).Writable own n := hown r List.mem_cons_self
    exact built_copyInto hr (.free rfl) _

private theorem steps_rethrowUnmatched (hcaught : x.caught = true) (n : Nat) (catches : List CatchClause) :
    Steps k x held ((unmatchedNumber catches).map (clauseLabel n)) (rethrowUnmatched n catches)
      (rethrowUnmatched n catches) := by
  have hexit : Exit x.caught (.of .rethrow []) := by
    rw [hcaught]
    exact .rethrow
  unfold rethrowUnmatched unmatchedNumber
  split
  · exact .labelled (.exit hexit)
  · exact .pure

/-! #### Handlers end in exits -/

private theorem ends_rethrow : Ends (emit .rethrow []) := by
  rintro st _ _ ⟨⟩
  simp [Closed, State.bare, Statement.bare, Statement.of, Opcode.isUnconditionalExit]

/-- An exit from where control can be leaves code that control does not run past. -/
theorem ends_ifReachable {s : Statement} (h : s.op.isUnconditionalExit = true) :
    Ends (ifReachable (emitStatement s)) := by
  intro st _ st' hrun
  rcases ifReachable_ok hrun with hrun | ⟨hclosed, rfl⟩
  · cases hrun
    rw [bare_push, Closed, List.getLast?_concat]
    exact h
  · exact hclosed

/-- The last step decides whether control runs past the code. -/
theorem Ends.bind {α : Type} {act : Lower α} {f : α → Lower Unit} (h : ∀ a, Ends (f a)) :
    Ends (act >>= f) := by
  intro st b st' hrun
  obtain ⟨a, st₁, -, hrun⟩ := exists_of_run_bind hrun
  exact h a st₁ b st' hrun

private theorem Ends.andReturn (h : Ends act) : Ends (act >>= fun _ ↦ pure ()) := by
  intro st _ st' hrun
  obtain ⟨a, st₁, hact, hrun⟩ := exists_of_run_bind hrun
  cases hrun
  exact h st a _ hact

private theorem ends_lowerClauses (ctx : Context) (env : Surroundings) (n j : Nat) (endLabel : String)
    {catches : List CatchClause} (h : catches ≠ []) :
    Ends (lowerClauses ctx env n j endLabel catches : Recorded Unit).run := by
  induction catches generalizing j with
  | nil => exact absurd rfl h
  | cons clause rest ih =>
    obtain ⟨ty, var, stmts, span⟩ := clause
    have hrest : Ends (emitJumpIfReachable endLabel >>= fun _ ↦
        (lowerClauses ctx env n (j + 1) endLabel rest : Recorded Unit).run) := by
      cases rest with
      | nil =>
        rw [lowerClauses]
        exact (ends_ifReachable rfl).andReturn
      | cons next rest => exact .bind fun _ ↦ ih (j + 1) (List.cons_ne_nil next rest)
    rw [lowerClauses]
    exact .bind fun _ ↦ .bind fun _ ↦ .bind fun _ ↦ hrest

private theorem ends_handler (ctx : Context) (env : Surroundings) (n : Nat) (endLabel : String)
    {catches : List CatchClause} (h : catches ≠ []) :
    Ends (do
      lowerClauses ctx env n 0 endLabel catches
      rethrowUnmatched n catches : Recorded Unit).run := by
  unfold rethrowUnmatched
  split
  · exact .bind fun _ ↦ .bind fun _ ↦ ends_rethrow
  · exact (ends_lowerClauses ctx env n 0 endLabel h).andReturn

/-! ### Statements -/

/-- What is asked of a tree is asked at the strictness of a setting. -/
def Setting.Asks (k : Setting) (orderly : Bool → Bool) : Prop :=
  k.strictness ≠ .loose → orderly (k.strictness == .guarded) = true

private theorem Setting.Asks.and {p q : Bool → Bool} (h : k.Asks fun b ↦ p b && q b) : k.Asks p ∧ k.Asks q :=
  ⟨fun hk ↦ (Bool.and_eq_true_iff.mp (h hk)).1, fun hk ↦ (Bool.and_eq_true_iff.mp (h hk)).2⟩

/-- The surroundings of a statement are those of its spot. In sealed code only the jumps count that are
allowed there. -/
structure Suits (k : Setting) (env : Surroundings) (breaks continues : Bool) (x : Spot) : Prop where
  caught : env.inCatch = true → x.caught = true
  breaks : (k.strictness = .sealed → breaks = true) → ∀ t, env.targets.head? = some t →
    (t.breakLabel, t.depth) ∈ x.far
  continues : (k.strictness = .sealed → continues = true) → ∀ t,
    (env.targets.findSome? fun t ↦ t.continueLabel.map (·, t.depth)) = some t → t ∈ x.far

namespace Suits

private theorem ahead (h : Suits k env breaks continues x) (labels : List String) :
    Suits k env breaks continues (x.ahead labels) := ⟨h.caught, h.breaks, h.continues⟩

private theorem scope (h : Suits k env breaks continues x) : Suits k env breaks continues x.scope :=
  ⟨h.caught, h.breaks, h.continues⟩

private theorem body (h : Suits k env breaks continues x) : Suits k env breaks continues x.body :=
  ⟨h.caught, h.breaks, h.continues⟩

private theorem handler (h : Suits k env breaks continues x) (endLabel : String) :
    Suits k { env with inCatch := true } breaks continues (x.handler endLabel) :=
  ⟨fun _ ↦ rfl, h.breaks, h.continues⟩

private theorem cleanup (h : Suits k env breaks continues x) :
    Suits k env (k.strictness == .guarded) (k.strictness == .guarded)
      (x.cleanup (k.strictness == .sealed)) := by
  have hopen (hk : k.strictness = .sealed → (k.strictness == .guarded) = true) :
      k.strictness ≠ .sealed := by
    intro hsealed
    have := hk hsealed
    rw [hsealed] at this
    cases this
  have hfar (hk : k.strictness ≠ .sealed) : (x.cleanup (k.strictness == .sealed)).far = x.far :=
    if_neg (by simpa using hk)
  refine ⟨h.caught, fun hk ↦ ?_, fun hk ↦ ?_⟩
  · rw [hfar (hopen hk)]
    exact h.breaks fun hsealed ↦ absurd hsealed (hopen hk)
  · rw [hfar (hopen hk)]
    exact h.continues fun hsealed ↦ absurd hsealed (hopen hk)

private theorem loop (h : Suits k env breaks continues x) (labels later : List String)
    (breakLabel continueLabel : String) :
    Suits k { env with targets := ⟨breakLabel, some continueLabel, x.depth⟩ :: env.targets } true true
      (((x.loop labels).ahead later).inside breakLabel (some continueLabel)) := by
  refine ⟨h.caught, fun _ t ht ↦ ?_, fun _ t ht ↦ ?_⟩
  · cases ht
    exact List.mem_cons_self
  · cases ht
    exact List.mem_cons_of_mem _ List.mem_cons_self

private theorem switch (h : Suits k env breaks continues x) (breakLabel : String) :
    Suits k { env with targets := ⟨breakLabel, none, x.depth⟩ :: env.targets } true continues
      (x.inside breakLabel none) := by
  refine ⟨h.caught, fun _ t ht ↦ ?_, fun hk t ht ↦ ?_⟩
  · cases ht
    exact List.mem_cons_self
  · exact List.mem_cons_of_mem _ (h.continues hk t ht)

private theorem steps_lowerBreak (h : Suits k env breaks continues x) (hk : k.Asks fun _ ↦ breaks)
    (span : Span) : Steps k x held [] (lowerBreak k.first env span)
      (Recorded.lift (lowerBreak k.second env span)) := by
  unfold lowerBreak
  cases ht : env.targets.head? with
  | none => exact .fail _
  | some t =>
    refine .jumpOut (h.breaks (fun hsealed ↦ hk ?_) t ht)
    rw [hsealed]
    decide

private theorem steps_lowerContinue (h : Suits k env breaks continues x) (hk : k.Asks fun _ ↦ continues)
    (span : Span) : Steps k x held [] (lowerContinue k.first env span)
      (Recorded.lift (lowerContinue k.second env span)) := by
  unfold lowerContinue
  cases ht : env.targets.findSome? fun t ↦ t.continueLabel.map (·, t.depth) with
  | none => exact .fail _
  | some t =>
    refine .jumpOut (h.continues (fun hsealed ↦ hk ?_) t ht)
    rw [hsealed]
    decide

end Suits

private theorem mem_unmatched (n : Nat) (catches : List CatchClause)
    (h : catches.getLast?.any (·.ty.isSome) = true) :
    clauseLabel n (0 + catches.length) ∈ (unmatchedNumber catches).map (clauseLabel n) ++ near := by
  rw [unmatchedNumber, if_pos h, Nat.zero_add]
  exact List.mem_cons_self

/-- A handler runs its clauses, and throws again what none of them takes. -/
private theorem steps_handler {endLabel : String} {n : Nat} {catches : List CatchClause}
    (h : Steps k ((x.handler endLabel).ahead ((unmatchedNumber catches).map (clauseLabel n))) held
      ((clauseNumbers 0 catches).map (clauseLabel n)) a a') :
    Steps k (x.handler endLabel) held ((clauseParts catches).map (labelName "try" n))
      (a >>= fun _ ↦ rethrowUnmatched n catches) (a' >>= fun _ ↦ rethrowUnmatched n catches) := by
  rw [map_clauseParts]
  exact h.seq (steps_rethrowUnmatched rfl n catches)

/-- A protected construct is put together from its parts. -/
private theorem steps_protected {body cleanup : Lower Unit} {body' cleanup' : Recorded Unit}
    {handler : Nat → Lower Unit} {handler' : Nat → Recorded Unit} {catches : List CatchClause}
    {last : Option Body} (hsome : k.strictness ≠ .loose → catches.isEmpty = false ∨ last.isSome = true)
    (hbody : Steps k x.body held [] body body')
    (hhandler : ∀ n, Steps k (x.handler (labelName "try" n "end")) held
      ((clauseParts catches).map (labelName "try" n)) (handler n) (handler' n))
    (hends : catches ≠ [] → ∀ n, Ends (handler' n).run)
    (hcleanup : Steps k (x.cleanup (k.strictness == .sealed)) held [] cleanup cleanup') :
    Steps k x held []
      (newConstruct >>= fun n ↦ protectedSteps
        (if catches.isEmpty then none else some (labelName "try" n "catch"))
        (last.map fun _ ↦ labelName "try" n "finally") (labelName "try" n "end") body (handler n) cleanup)
      (Recorded.lift newConstruct >>= fun n ↦ protectedSteps
        (if catches.isEmpty then none else some (labelName "try" n "catch"))
        (last.map fun _ ↦ labelName "try" n "finally") (labelName "try" n "end") body' (handler' n)
        cleanup') := by
  have hcatch (n : Nat) : (if catches.isEmpty then none else some (labelName "try" n "catch")) =
      phaseLabel (!catches.isEmpty) n "catch" := by
    cases catches <;> rfl
  have hfinally (n : Nat) : (last.map fun _ ↦ labelName "try" n "finally") =
      phaseLabel last.isSome n "finally" := by
    cases last <;> rfl
  simp only [hcatch, hfinally]
  refine .protect _ _ (clauseParts catches) (plainParts_try catches) (fun hk ↦ ?_) (fun hnone ↦ ?_) hbody
    hhandler (fun hhandled ↦ hends ?_) hcleanup
  · simpa using hsome hk
  · cases catches with
    | nil => rfl
    | cons => cases hnone
  · rintro rfl
    cases hhandled

mutual

/-- The code of a statement is put together from the steps of statements. -/
theorem steps_lowerStmt (k : Setting) (hsecond : k.loading.second = false) {env : Surroundings}
    {breaks continues : Bool} {x : Spot} {held : List Nat} (henv : Suits k env breaks continues x)
    (hdepth : 0 < x.depth) : (s : Stmt) → (k.Asks fun leaving ↦ s.isOrderly leaving breaks continues) →
    (∀ f ∈ s.callees k.symbols, k.allowed f.1 f.2) →
    Steps k x held [] (lowerStmt k.first env s) (lowerStmt k.second env s)
  | .block _ body, hs, h => by
    rw [lowerStmt, lowerStmt]
    rw [Stmt.callees] at h
    exact steps_lowerBody k hsecond henv body (fun hk ↦ by simpa only [Stmt.isOrderly] using hs hk) h
  | .declare span name ty init isConst, _, h => by
    rw [lowerStmt, lowerStmt]
    rw [Stmt.callees] at h
    exact steps_lowerDeclare hdepth span name ty isConst h
  | .eval _ e, _, h => by
    rw [lowerStmt, lowerStmt]
    rw [Stmt.callees] at h
    exact .apart fun own _ ↦ (exprBuilt k own e h).run
  | .ifElse _ cond thenBranch none, hs, h => by
    rw [lowerStmt, lowerStmt]
    rw [Stmt.callees, List.forall_mem_append] at h
    simp only [Stmt.isOrderly] at hs
    refine .construct "if" ["end"] ⟨by decide, by decide, by decide⟩ fun n ↦ ?_
    exact .step (.apart fun own _ ↦ (exprBuilt k own cond h.1).branch false List.mem_cons_self) <|
      .step (steps_lowerStmt k hsecond (henv.ahead _) hdepth thenBranch hs h.2) (.label _)
  | .ifElse _ cond thenBranch (some elseBranch), hs, h => by
    rw [lowerStmt, lowerStmt]
    rw [Stmt.callees, List.forall_mem_append, List.forall_mem_append] at h
    simp only [Stmt.isOrderly] at hs
    refine .construct "if" ["else", "end"] ⟨by decide, by decide, by decide⟩ fun n ↦ ?_
    exact .step (.apart fun own _ ↦ (exprBuilt k own cond h.1.1).branch false List.mem_cons_self) <|
      .step (steps_lowerStmt k hsecond (henv.ahead _) hdepth thenBranch hs.and.1 h.1.2) <|
      .step (.jumpOn (List.mem_cons_of_mem _ List.mem_cons_self)) <| .labelled <|
      .step (steps_lowerStmt k hsecond (henv.ahead _) hdepth elseBranch hs.and.2 h.2) (.label _)
  | .whileLoop _ cond body, hs, h => by
    rw [lowerStmt, lowerStmt]
    rw [Stmt.callees, List.forall_mem_append] at h
    simp only [Stmt.isOrderly] at hs
    refine .construct "while" ["cond", "end"] ⟨by decide, by decide, by decide⟩ fun n ↦ .loop <|
      .labelled <| .step (.apart fun own _ ↦ (exprBuilt k own cond h.1).branch false List.mem_cons_self) <|
      .step ?_ <| .step (.jumpOn (List.mem_cons_of_mem _ List.mem_cons_self)) (.label _)
    exact .inside List.mem_cons_self (by simp [Spot.ahead, Spot.loop])
      (steps_lowerStmt k hsecond (henv.loop _ _ _ _) hdepth body hs h.2)
  | .doWhile _ body cond, hs, h => by
    rw [lowerStmt, lowerStmt]
    rw [Stmt.callees, List.forall_mem_append] at h
    simp only [Stmt.isOrderly] at hs
    refine .construct "do" ["body", "cond", "end"] ⟨by decide, by decide, by decide⟩ fun n ↦ .loop <|
      .labelled <| .step ?_ <| .labelled <|
      .step (.apart fun own _ ↦ (exprBuilt k own cond h.2).branch true (by simp [Spot.ahead, Spot.loop]))
        (.label _)
    exact .inside (List.mem_cons_of_mem _ List.mem_cons_self) (by simp [Spot.ahead, Spot.loop])
      (steps_lowerStmt k hsecond (henv.loop _ _ _ _) hdepth body hs h.1)
  | .forLoop _ init cond step body, hs, h => by
    rw [lowerStmt, lowerStmt]
    rw [Stmt.callees, List.forall_mem_append, List.forall_mem_append, List.forall_mem_append] at h
    obtain ⟨⟨⟨hinit, hcond⟩, hstep⟩, hbody⟩ := h
    simp only [Stmt.isOrderly] at hs
    refine .construct "for" ["cond", "step", "end"] ⟨by decide, by decide, by decide⟩ fun n ↦ .scope <|
      .step (steps_lowerStmts k hsecond (henv.scope.ahead _) (Nat.succ_pos _) init hs.and.1 hinit) <|
      .loop <| .labelled <|
      .step (.apart fun _ _ ↦ built_branchUnless (by simp [Spot.ahead, Spot.loop]) hcond) <|
      .step ?_ <| .labelled <| .step (.apart fun _ _ ↦ built_runAll hstep) <|
      .step (.apart fun _ _ ↦ .jump (by simp [Spot.ahead, Spot.loop])) (.label _)
    exact .inside (by simp [Spot.ahead, Spot.loop]) (by simp [Spot.ahead, Spot.loop])
      (steps_lowerStmt k hsecond (henv.scope.loop _ _ _ _) (Nat.succ_pos _) body hs.and.2 hbody)
  | .foreach _ var varTy collection body, hs, h => by
    rw [lowerStmt, lowerStmt]
    rw [Stmt.callees, List.forall_mem_append] at h
    simp only [Stmt.isOrderly] at hs
    refine .ite (fun _ ↦ ?_) fun _ ↦ .fail _
    refine .construct "foreach" ["cond", "step", "end"] ⟨by decide, by decide, by decide⟩ fun n ↦ .scope <|
      .declare (Nat.succ_pos _) (fun _ ↦ .pure) fun seq ↦
      .step (.built fun own _ hown ↦ ((exprBuilt k own collection h.1).value _
        (offered_some (writable_of_held hown List.mem_cons_self))).dropped) <|
      .register fun index ↦ .register fun len ↦
      .step (.built fun _ _ hown ↦ .write rfl rfl (writable_of_held hown (by simp))
        (.cons (.free rfl) .nil)) <|
      .step (.built fun _ _ hown ↦ .write rfl rfl (writable_of_held hown (by simp))
        (.cons (writable_of_held hown (by simp)).fits .nil)) <| .loop <| .labelled <|
      .step (.built fun own m hown ↦ ?_) <| .step ?_ <| .labelled <|
      .step (.built fun _ _ hown ↦ .write rfl rfl (writable_of_held hown (by simp))
        (.cons (writable_of_held hown (by simp)).fits (.cons (.free rfl) .nil))) <|
      .step (.apart fun _ _ ↦ .jump (by simp [Spot.ahead, Spot.loop])) (.label _)
    · have hoperands : Operand.AllFit k own ⟨m, []⟩ [.register index .i32, .register len .i32]
          [.register index .i32, .register len .i32] :=
        .cons (writable_of_held hown (by simp)).fits (.cons (writable_of_held hown (by simp)).fits .nil)
      exact .branch rfl hoperands (by simp [Spot.ahead, Spot.loop])
    · exact .inside (by simp [Spot.ahead, Spot.loop]) (by simp [Spot.ahead, Spot.loop]) <| .scope <|
        .declare (Nat.succ_pos _) (fun _ ↦ .pure) fun item ↦
        .step (.built fun _ _ hown ↦ .write rfl rfl (writable_of_held hown List.mem_cons_self)
          (.cons (writable_of_held hown (by simp)).fits
            (.cons (writable_of_held hown (by simp)).fits .nil))) <|
        steps_lowerStmt k hsecond (henv.scope.loop _ _ _ _).scope (Nat.succ_pos _) body hs h.2
  | .switch _ subject sections, hs, h => by
    rw [lowerStmt, lowerStmt]
    rw [Stmt.callees, List.forall_mem_append] at h
    simp only [Stmt.isOrderly] at hs
    cases sections.isEmpty with
    | true =>
      exact .construct "switch" [] ⟨by decide, by decide, by decide⟩ fun n ↦ .apart fun own _ ↦
        (exprBuilt k own subject h.1).operand.dropped
    | false =>
      refine .construct "switch" (switchParts sections) (plainParts_switch sections) fun n ↦ ?_
      rw [map_switchParts]
      refine .step (.apart fun _ _ ↦ built_dispatch hsecond h.1 fun l hl ↦ ?_) <|
        .step (.apart fun _ _ ↦ .jump (List.mem_append_left _ (defaultLabel_mem n sections))) <|
        .scope <| .seq ?_ (.label _)
      · exact List.mem_append_left _ (List.mem_append_left _ (target_of_switchCases hl))
      · exact .inside List.mem_cons_self (by simp)
          (steps_lowerSections k hsecond ((henv.scope.ahead _).switch _) (Nat.succ_pos _) n 0 sections hs h.2)
  | .breakOut span, hs, _ => by
    rw [lowerStmt, lowerStmt]
    simp only [Stmt.isOrderly] at hs
    exact henv.steps_lowerBreak hs span
  | .continueLoop span, hs, _ => by
    rw [lowerStmt, lowerStmt]
    simp only [Stmt.isOrderly] at hs
    exact henv.steps_lowerContinue hs span
  | .ret _ value, _, h => by
    rw [lowerStmt, lowerStmt]
    rw [Stmt.callees] at h
    exact steps_lowerReturn h
  | .throw span value, _, h => by
    rw [lowerStmt, lowerStmt]
    rw [Stmt.callees] at h
    exact steps_lowerThrow henv.caught span h
  | .tryCatch _ body catches none, hs, h => by
    rw [lowerStmt, lowerStmt]
    rw [Stmt.callees, List.forall_mem_append] at h
    simp only [Stmt.isOrderly] at hs
    refine steps_protected (fun hk ↦ .inl (by simpa using hs.and.1 hk))
      (steps_lowerBody k hsecond henv.body body hs.and.2.and.1 h.1)
      (fun n ↦ steps_handler <| steps_lowerClauses k hsecond ((henv.handler _).ahead _) n 0
        List.mem_cons_self catches hs.and.2.and.2 h.2 (mem_unmatched n catches))
      (fun hne n ↦ ends_handler _ _ n _ hne) ?_
    rw [lowerCleanup, lowerCleanup]
    exact .pure
  | .tryCatch _ body catches (some cleanup), hs, h => by
    rw [lowerStmt, lowerStmt]
    rw [Stmt.callees, List.forall_mem_append, List.forall_mem_append] at h
    simp only [Stmt.isOrderly] at hs
    refine steps_protected (fun _ ↦ .inr rfl)
      (steps_lowerBody k hsecond henv.body body hs.and.2.and.1 h.1.1)
      (fun n ↦ steps_handler <| steps_lowerClauses k hsecond ((henv.handler _).ahead _) n 0
        List.mem_cons_self catches hs.and.2.and.2 h.1.2 (mem_unmatched n catches))
      (fun hne n ↦ ends_handler _ _ n _ hne) ?_
    rw [lowerCleanup, lowerCleanup]
    exact steps_lowerBody k hsecond henv.cleanup cleanup hs.and.1 h.2
  | .empty _, _, _ => by
    rw [lowerStmt, lowerStmt]
    exact .pure
  | .unsupported span construct, _, _ => by
    rw [lowerStmt, lowerStmt]
    exact .fail _

/-- The code of some statements is put together from the steps of statements. -/
theorem steps_lowerStmts (k : Setting) (hsecond : k.loading.second = false) {env : Surroundings}
    {breaks continues : Bool} {x : Spot} {held : List Nat} (henv : Suits k env breaks continues x)
    (hdepth : 0 < x.depth) : (ss : List Stmt) →
    (k.Asks fun leaving ↦ Stmt.areOrderly leaving breaks continues ss) →
    (∀ f ∈ Stmt.calleesOf k.symbols ss, k.allowed f.1 f.2) →
    Steps k x held [] (lowerStmts k.first env ss) (lowerStmts k.second env ss)
  | [], _, _ => by
    rw [lowerStmts, lowerStmts]
    exact .pure
  | s :: rest, hs, h => by
    rw [lowerStmts, lowerStmts]
    rw [Stmt.calleesOf, List.forall_mem_append] at h
    simp only [Stmt.areOrderly] at hs
    exact .step (steps_lowerStmt k hsecond (henv.ahead _) hdepth s hs.and.1 h.1)
      (steps_lowerStmts k hsecond henv hdepth rest hs.and.2 h.2)

/-- The code of a body is put together from the steps of statements. -/
theorem steps_lowerBody (k : Setting) (hsecond : k.loading.second = false) {env : Surroundings}
    {breaks continues : Bool} {x : Spot} {held : List Nat} (henv : Suits k env breaks continues x) :
    (b : Body) → (k.Asks fun leaving ↦ b.isOrderly leaving breaks continues) →
    (∀ f ∈ b.callees k.symbols, k.allowed f.1 f.2) →
    Steps k x held [] (lowerBody k.first env b) (lowerBody k.second env b)
  | .mk stmts _, hs, h => by
    rw [lowerBody, lowerBody]
    rw [Body.callees] at h
    simp only [Body.isOrderly] at hs
    exact .scope (steps_lowerStmts k hsecond henv.scope (Nat.succ_pos _) stmts hs h)

/-- The code of the sections of a switch is put together from the steps of statements. -/
theorem steps_lowerSections (k : Setting) (hsecond : k.loading.second = false) {env : Surroundings}
    {continues : Bool} {x : Spot} {held : List Nat} (henv : Suits k env true continues x)
    (hdepth : 0 < x.depth) (n i : Nat) : (sections : List SwitchSection) →
    (k.Asks fun leaving ↦ SwitchSection.areOrderly leaving continues sections) →
    (∀ f ∈ SwitchSection.calleesOf k.symbols sections, k.allowed f.1 f.2) →
    Steps k x held ((List.range' i sections.length).map (caseLabel n))
      (lowerSections k.first env n i sections)
      (lowerSections k.second env n i sections)
  | [], _, _ => by
    rw [lowerSections, lowerSections]
    exact .pure
  | .mk _ body :: rest, hs, h => by
    rw [lowerSections, lowerSections, List.length_cons, List.range'_succ, List.map_cons]
    rw [SwitchSection.calleesOf, List.forall_mem_append] at h
    simp only [SwitchSection.areOrderly] at hs
    exact .labelled <| .step (steps_lowerStmts k hsecond (henv.ahead _) hdepth body hs.and.1 h.1) <|
      .step (steps_trapFallthrough body)
        (steps_lowerSections k hsecond henv hdepth n (i + 1) rest hs.and.2 h.2)

/-- The code of catch clauses is put together from the steps of statements. -/
theorem steps_lowerClauses (k : Setting) (hsecond : k.loading.second = false) {env : Surroundings}
    {breaks continues : Bool} {x : Spot} {held : List Nat} (henv : Suits k env breaks continues x) (n j : Nat)
    {endLabel : String} (hend : endLabel ∈ x.jumps) : (catches : List CatchClause) →
    (k.Asks fun leaving ↦ CatchClause.areOrderly leaving breaks continues catches) →
    (∀ f ∈ CatchClause.calleesOf k.symbols catches, k.allowed f.1 f.2) →
    (catches.getLast?.any (·.ty.isSome) = true → clauseLabel n (j + catches.length) ∈ x.near) →
    Steps k x held ((clauseNumbers j catches).map (clauseLabel n))
      (lowerClauses k.first env n j endLabel catches) (lowerClauses k.second env n j endLabel catches)
  | [], _, _, _ => by
    rw [lowerClauses, lowerClauses]
    exact .pure
  | .mk ty var (.mk stmts _) :: rest, hs, h, hlast => by
    rw [lowerClauses, lowerClauses, map_clauseNumbers_cons]
    rw [CatchClause.calleesOf, List.forall_mem_append] at h
    simp only [CatchClause.areOrderly, Body.isOrderly] at hs
    refine .seq (steps_startClause n j) <| .step (.apart fun _ _ ↦ built_testClause fun hty ↦ ?_) <|
      .step ?_ <| .step (.ifReachable (.jump hend)) <|
      steps_lowerClauses k hsecond henv n (j + 1) hend rest hs.and.2 h.2 fun hrest ↦ ?_
    · cases rest with
      | nil => exact List.mem_append_right _ (hlast hty)
      | cons _ _ =>
        rw [map_clauseNumbers_cons, if_pos (Nat.succ_pos j)]
        exact List.mem_cons_self
    · exact .scope <| .step (steps_bindException (Nat.succ_pos _) ty var)
        (steps_lowerStmts k hsecond (henv.ahead _).scope (Nat.succ_pos _) stmts hs.and.1 h.1)
    · cases rest with
      | nil => cases hrest
      | cons _ _ =>
        rw [Nat.add_right_comm]
        exact hlast hrest

end

/-- The code of a method is put together from the steps of statements. -/
theorem steps_lowerMethodBody (k : Setting) (hsecond : k.loading.second = false)
    (hs : k.Asks fun leaving ↦ k.method.body.isOrderly leaving true true)
    (h : ∀ f ∈ k.method.body.callees k.symbols, k.allowed f.1 f.2) :
    Steps k .top [] [] (lowerMethodBody k.first) (lowerMethodBody k.second) := by
  have henv : Suits k {} true true .top := by
    refine ⟨?_, ?_, ?_⟩
    · rintro ⟨⟩
    · rintro _ _ ⟨⟩
    · rintro _ _ ⟨⟩
  exact .step (steps_lowerBody k hsecond (henv.ahead _) k.method.body hs h) (.ifReachable (.exit .ret))

/-- The setting of a method as it is lowered, in both runs. -/
def Context.setting (ctx : Context) (strictness : Strictness) : Setting where
  method := ctx.method
  symbols := ctx.symbols
  loading := .pooled
  comments := ctx.comments
  comments' := ctx.comments
  allowed := fun _ _ ↦ True
  strictness := strictness

/-- A method is lowered by steps of statements. -/
theorem Context.steps {ctx : Context} (hplace : ctx.inPlace = false) (strictness : Strictness)
    (hs : (ctx.setting strictness).Asks fun leaving ↦ ctx.method.body.isOrderly leaving true true) :
    Steps (ctx.setting strictness) .top [] [] (lowerMethodBody ctx) (lowerMethodBody ctx) := by
  obtain ⟨method, symbols, comments, inPlace⟩ := ctx
  cases hplace
  exact steps_lowerMethodBody _ rfl hs fun _ _ ↦ trivial

end Lowering

end MethodCompiler
