import MethodCompiler.Proofs.GraphProgress

/-!
# Code that can be placed

The code of a method names labels only as places to go to, defines each of them, and clears ranges that
run from a register to itself. So once its regions are in order, nothing but a full frame stops it on the
way to its final form.
-/

namespace MethodCompiler

variable {code : List Statement} {constants : List Value} {labels : List String} {s : Statement}
  {v : Value} {l : String}

/-! ### Values -/

namespace Value

variable {ε : Type} {f : String → Except ε Value}

mutual

private theorem resolveLabels_eq_self {v : Value} (h : v.hasLabel = false) :
    v.resolveLabels f = (none, v) := by
  cases v with
  | label name => cases h
  | array elem items => rw [resolveLabels, resolveItems_eq_self h]
  | table key value entries => rw [resolveLabels, resolveEntries_eq_self h]
  | _ => rfl

private theorem resolveItems_eq_self {items : List Value} (h : anyItemHasLabel items = false) :
    resolveItems f items = (none, items) := by
  cases items with
  | nil => rfl
  | cons v rest =>
    rw [anyItemHasLabel, Bool.or_eq_false_iff] at h
    simp only [resolveItems, resolveLabels_eq_self h.1, resolveItems_eq_self h.2]

private theorem resolveEntries_eq_self {entries : List (Value × Value)}
    (h : anyEntryHasLabel entries = false) : resolveEntries f entries = (none, entries) := by
  cases entries with
  | nil => rfl
  | cons entry rest =>
    obtain ⟨k, v⟩ := entry
    rw [anyEntryHasLabel, Bool.or_eq_false_iff, Bool.or_eq_false_iff] at h
    simp only [resolveEntries, resolveLabels_eq_self h.1.1, resolveLabels_eq_self h.1.2,
      resolveEntries_eq_self h.2]

end

/-- Labels of the value, if it has any, are those of a jump table and among `labels`. -/
def Placeable (labels : List String) (v : Value) : Prop :=
  v.hasLabel = false ∨ v.IsJumpTable ∧ ∀ l ∈ FlowGraph.tableTargets v, l ∈ labels

private theorem exists_resolveEntries {entries : List (Value × Value)}
    (h : ∀ e ∈ entries, e.1.hasLabel = false ∧ ∃ l, e.2 = .label l)
    (hf : ∀ l ∈ FlowGraph.entryTargets entries, ∃ w, f l = .ok w) :
    ∃ entries', resolveEntries f entries = (none, entries') := by
  induction entries with
  | nil => exact ⟨[], rfl⟩
  | cons entry rest ih =>
    obtain ⟨k, v⟩ := entry
    obtain ⟨⟨hk, l, rfl⟩, hrest⟩ := List.forall_mem_cons.mp h
    rw [FlowGraph.entryTargets, FlowGraph.tableTargets, List.singleton_append,
      List.forall_mem_cons] at hf
    obtain ⟨w, hw⟩ := hf.1
    obtain ⟨rest', hrest'⟩ := ih hrest hf.2
    have hv : (Value.label l).resolveLabels f = (none, w) := by rw [resolveLabels, hw]
    exact ⟨(k, w) :: rest', by simp only [resolveEntries, resolveLabels_eq_self hk, hv, hrest']⟩

private theorem Placeable.exists_resolve (h : v.Placeable labels) (hf : ∀ l ∈ labels, ∃ w, f l = .ok w) :
    ∃ w, v.resolve f = .ok w := by
  rcases h with h | ⟨⟨key, value, entries, rfl, hentries⟩, htargets⟩
  · exact ⟨v, resolve_eq_ok.mpr (resolveLabels_eq_self h)⟩
  · obtain ⟨entries', hentries'⟩ := exists_resolveEntries hentries fun l hl ↦ hf l (htargets l hl)
    exact ⟨.table key value entries', resolve_eq_ok.mpr (by rw [resolveLabels, hentries'])⟩

end Value

/-! ### Statements -/

/-- A label that the operand names is among `labels`, and the opcode can go to it. -/
def Operand.Placeable (labels : List String) (op : Opcode) : Operand → Prop
  | .label l => l ∈ labels ∧ (op = .enterTry ∨ op.isBranch = true)
  | .immediate v => v.Placeable labels
  | _ => True

private theorem Operand.Sound.placeable {a : Operand} {n : Nat} (h : a.Sound n) (labels : List String)
    (op : Opcode) : a.Placeable labels op := by
  cases a with
  | label l => cases h
  | immediate v => exact .inl h
  | _ => trivial

private theorem Operand.Placeable.mapRegister {a : Operand} {op : Opcode} (h : a.Placeable labels op)
    (f : Nat → Nat) : (a.mapRegister f).Placeable labels op := by
  cases a with
  | immediate v =>
    cases v with
    | registerIndex r => exact .inl rfl
    | _ => exact h
  | _ => exact h

/-- All operands of the statement can be placed, unless it defines a label. -/
def Statement.Placeable (labels : List String) (s : Statement) : Prop :=
  s.label? = none → ∀ a ∈ s.operands, a.Placeable labels s.op

namespace Statement

private theorem Placeable.mapRegisters (h : s.Placeable labels) (f : Nat → Nat) :
    (s.mapRegisters f).Placeable labels := by
  intro hl a ha
  rw [label?_mapRegisters] at hl
  obtain ⟨b, hb, rfl⟩ := List.mem_map.mp ha
  exact (h hl b hb).mapRegister f

private theorem Placeable.join {t : Statement} (hs : s.op = .nullify) (ht : t.op = .nullify)
    (h : s.Placeable labels) (h' : t.Placeable labels) :
    (s.withLast (t.operands.getD 1 .null)).Placeable labels := by
  have hlabel {u : Statement} (hu : u.op = .nullify) : u.label? = none :=
    label?_of_ne (by rw [hu]; nofun)
  intro _ a ha
  change a.Placeable labels s.op
  rcases mem_operands_withLast ha with ha | rfl
  · exact h (hlabel hs) a ha
  · rcases t.getD_operands 1 with hmem | hnull
    · rw [hs, ← ht]
      exact h' (hlabel ht) _ hmem
    · rw [hnull]
      exact .inl rfl

/-- A range from a register to itself is one that can be cleared. -/
private theorem exists_clearedRange (h : ∃ r ty, s.operands = [.register r ty, .register r ty]) :
    ∃ range, s.clearedRange? = .ok range := by
  obtain ⟨r, ty, hr⟩ := h
  exact ⟨(r, r), by simp [clearedRange?, hr]⟩

end Statement

/-! ### Code -/

section Ranges

variable (h : ∀ s ∈ code, s.op = .nullify → ∃ range, s.clearedRange? = .ok range)

include h

/-- Well formed ranges pass the check. -/
theorem checkNullify_eq_ok (position : Nat) : checkNullify position code = .ok () := by
  induction code generalizing position with
  | nil => rfl
  | cons s rest ih =>
    obtain ⟨hs, hrest⟩ := List.forall_mem_cons.mp h
    rw [checkNullify]
    split
    · next hop =>
      obtain ⟨range, hrange⟩ := hs (eq_of_beq hop)
      rw [hrange]
      exact ih hrest (position + 1)
    · exact ih hrest (position + 1)

private theorem exists_mergeNullifyFrom (position : Nat) (last : Option (Statement × Option Nat)) :
    ∃ out, mergeNullifyFrom position last code = .ok out := by
  induction code generalizing position last with
  | nil => exact ⟨_, rfl⟩
  | cons s rest ih =>
    obtain ⟨hs, hrest⟩ := List.forall_mem_cons.mp h
    have hkeep (last' : Option (Statement × Option Nat)) (done : List Statement) :
        ∃ out, (do return done ++ (← mergeNullifyFrom (position + 1) last' rest)) =
          (.ok out : Except Error _) :=
      exists_bind_ok (ih hrest _ _) fun more _ ↦ ⟨done ++ more, rfl⟩
    rw [mergeNullifyFrom]
    split
    · next hop =>
      obtain ⟨range, hrange⟩ := hs (eq_of_beq hop)
      simp only [hrange]
      split
      · split
        · exact ih hrest _ _
        · exact hkeep _ _
      · exact hkeep _ _
    · exact hkeep _ _

end Ranges

namespace Placement

variable {strip : Bool}

/-- A label that the code defines can be resolved. -/
theorem exists_resolve (h : l ∈ labelsOf code) :
    ∃ i, (ofCode strip 0 false code).resolve l = .ok i := by
  rw [← map_fst_positions strip 0 false] at h
  obtain ⟨⟨l', i⟩, he, rfl⟩ := List.mem_map.mp h
  have hfound := List.find?_isSome (p := fun e : String × Nat ↦ e.1 == l')
    |>.mpr ⟨_, List.mem_reverse.mpr he, beq_self_eq_true l'⟩
  obtain ⟨⟨l, j⟩, hj⟩ := Option.isSome_iff_exists.mp hfound
  exact ⟨j, by rw [resolve, hj]⟩

private theorem exists_resolveValue (h : v.Placeable (labelsOf code)) :
    ∃ w, (ofCode strip 0 false code).resolveValue v = .ok w :=
  h.exists_resolve fun _ hl ↦ exists_bind_ok (exists_resolve hl) fun _ _ ↦ ⟨_, rfl⟩

private theorem exists_resolveOperand {op : Opcode} {a : Operand} (i : Nat)
    (h : a.Placeable (labelsOf code) op) :
    ∃ b, (ofCode strip 0 false code).resolveOperand op i a = .ok b := by
  cases a with
  | label l =>
    refine exists_bind_ok (exists_resolve h.1) fun target _ ↦ ?_
    rcases h.2 with hop | hop
    · rw [if_pos (beq_iff_eq.mpr hop)]
      exact ⟨_, rfl⟩
    · rw [if_pos hop]
      split <;> exact ⟨_, rfl⟩
  | immediate v => exact exists_bind_ok (exists_resolveValue h) fun _ _ ↦ ⟨_, rfl⟩
  | _ => exact ⟨_, rfl⟩

private theorem exists_resolveStatements (h : ∀ s ∈ code, s.Placeable (labelsOf code)) :
    ∃ out, (ofCode strip 0 false code).resolveStatements = .ok out := by
  refine exists_mapM_ok fun ⟨s, i⟩ hs ↦ exists_bind_ok (exists_mapM_ok fun a ha ↦ ?_) fun _ _ ↦ ⟨_, rfl⟩
  have hmem := List.fst_mem_of_mem_zipIdx hs
  exact exists_resolveOperand i
    (h s (mem_of_mem_statements hmem) (label?_of_mem_statements hmem) a ha)

end Placement

/-- Code can be placed if its statements and its constants can. -/
private theorem exists_place (hranges : ∀ s ∈ code, s.op = .nullify → ∃ range, s.clearedRange? = .ok range)
    (hcode : ∀ s ∈ code, s.Placeable (labelsOf code))
    (hconstants : ∀ v ∈ constants, v.Placeable (labelsOf code)) (o : Options) :
    ∃ placed, place code constants o = .ok placed := by
  have hrest {merged : List Statement} (hmerged : Merged code merged) : ∃ placed, (do
      let p := Placement.ofCode o.stripUnreachable 0 false merged
      let statements ← p.resolveStatements
      let values ← constants.mapM p.resolveValue
      return PlacedCode.mk statements values) = (.ok placed : Except Error _) := by
    rw [← hmerged.labelsOf_eq] at hcode hconstants
    exact exists_bind_ok (Placement.exists_resolveStatements
        (hmerged.forall_mem (fun _ _ ↦ Statement.Placeable.join) hcode)) fun _ _ ↦
      exists_bind_ok (exists_mapM_ok fun v hv ↦ Placement.exists_resolveValue (hconstants v hv))
        fun _ _ ↦ ⟨_, rfl⟩
  rw [place]
  split
  · exact exists_bind_ok (exists_mergeNullifyFrom hranges 0 none) fun merged hmerge ↦
      hrest (merged_of_mergeNullify hmerge)
  · rw [checkNullify_eq_ok hranges]
    exact hrest (.refl code)

/-! ### Methods -/

private theorem mem_labelsOf {i : Nat} (h : labelAt? code i = some l) : l ∈ labelsOf code := by
  obtain ⟨s, hs, hl⟩ := Option.bind_eq_some_iff.mp h
  exact List.mem_filterMap.mpr ⟨s, List.mem_of_getElem? hs, hl⟩

namespace Walk.Shaped

variable {w : Walk code} {sealed : Bool} {i : Nat}

/-- The labels that a `try` names are in the code. -/
private theorem placeable_try (h : w.Shaped sealed constants) (hs : code[i]? = some s)
    (hop : s.op = .enterTry) (hformed : s.Formed constants) : s.Placeable (labelsOf code) := by
  obtain ⟨r, hr, hopen⟩ := w.exists_opened hs hop
  obtain ⟨first, last, hplaced⟩ := h.placed hr
  obtain ⟨c, f, e, hoperands⟩ := hformed.handler hop
  obtain ⟨hc, hf, he⟩ : r.catchLabel = c ∧ r.finallyLabel = f ∧ r.endLabel = e := by
    rw [Region.open?, hoperands] at hopen
    cases c <;> cases f <;> cases hopen <;> exact ⟨rfl, rfl, rfl⟩
  -- an operand that may be missing is a label of the region or no label
  have hlabel (l : Option String) (hl : ∀ name, l = some name → name ∈ labelsOf code) :
      (Lowering.optionalLabel l).Placeable (labelsOf code) s.op := by
    cases l with
    | none => exact .inl rfl
    | some name => exact ⟨hl name rfl, .inl hop⟩
  intro _
  rw [hoperands]
  simp only [List.forall_mem_cons, List.not_mem_nil, false_imp_iff, implies_true, and_true]
  refine ⟨hlabel c fun l hl ↦ ?_, hlabel f fun l hl ↦ ?_, ?_, .inl hop⟩
  · obtain ⟨j, hj, -⟩ := hplaced.handler l (hc.trans hl)
    exact mem_labelsOf hj
  · obtain ⟨j, hj, -⟩ := hplaced.cleanup l (hf.trans hl)
    exact mem_labelsOf hj
  · rw [← he]
    exact mem_labelsOf hplaced.stop

/-- The labels that a statement goes to are in the code. -/
private theorem placeable (h : w.Shaped sealed constants) (hs : code[i]? = some s)
    (hformed : s.Formed constants) : s.Placeable (labelsOf code) := by
  by_cases htry : s.op = .enterTry
  · exact h.placeable_try hs htry hformed
  intro hlabel a ha
  have hop : s.op ≠ .label := by
    intro hop
    obtain ⟨l, hl⟩ := hformed.label hop
    simp [Statement.label?, Statement.isLabel, hop, hl, Operand.label?] at hlabel
  rcases hformed.mem_data_or_target hop htry ha with ha | ⟨l, hl, rfl⟩
  · exact (hformed.data a ha).placeable _ _
  · obtain ⟨j, hj, -⟩ := ((h.leads hs).branch l hl).found
    exact ⟨mem_labelsOf hj, .inr (Statement.isBranch_of_target? hl)⟩

/-- The labels that a jump table leads to are in the code. -/
private theorem placeable_table (h : w.Shaped sealed constants) {k : Nat} (hv : constants[k]? = some v)
    (htable : v.IsJumpTable) (hs : code[i]? = some s) (hk : s.table? = some k) :
    v.Placeable (labelsOf code) := by
  refine .inr ⟨htable, fun l hl ↦ ?_⟩
  rw [← Statement.switchTargets_of_table? hk hv] at hl
  obtain ⟨j, hj, -⟩ := ((h.leads hs).switch (Statement.table?_eq_some hk).1 l hl).found
  exact mem_labelsOf hj

end Walk.Shaped

/-- The code of a method with its leaves and its slots can be placed. -/
theorem LoweredFunction.WellFormed.exists_place {f : LoweredFunction} {sealed : Bool}
    (h : f.WellFormed sealed) {w : Walk f.code} (hw : w.Shaped sealed f.constants) (need : Nat → Nat)
    (packing : Packing) (o : Options) :
    ∃ placed, place (packing.apply (padded need f.code)) f.constants o = .ok placed := by
  have hlabels : labelsOf (packing.apply (padded need f.code)) = labelsOf f.code := by
    rw [Packing.labelsOf_apply, labelsOf_padded]
  -- each statement is a leave or a statement of the method, with its registers renamed
  have hall {P : Statement → Prop} (hleave : P (Statement.leave.mapRegisters packing.slotOf))
      (hcode : ∀ s ∈ f.code, P (s.mapRegisters packing.slotOf)) :
      ∀ s ∈ packing.apply (padded need f.code), P s := by
    intro s hs
    obtain ⟨t, ht, rfl⟩ := List.mem_map.mp hs
    rcases mem_padded ht with rfl | ht
    · exact hleave
    · exact hcode t ht
  apply MethodCompiler.exists_place
  · exact hall nofun fun s hs hop ↦
      Statement.exists_clearedRange (((h.sound s hs).mapRegisters _).cleared hop)
  · rw [hlabels]
    refine hall nofun fun s hs ↦ ?_
    obtain ⟨i, hi⟩ := List.getElem?_of_mem hs
    exact (hw.placeable hi (h.sound s hs).toFormed).mapRegisters _
  · intro v hv
    rw [hlabels]
    obtain ⟨k, hk⟩ := List.getElem?_of_mem hv
    rcases h.constants k v hk with hnone | ⟨htable, s, hs, htable?⟩
    · exact .inl hnone
    · obtain ⟨i, hi⟩ := List.getElem?_of_mem hs
      exact hw.placeable_table hk htable hi htable?

private theorem pack_eq_error {name : String} {g : FlowGraph} {limit : Nat} {e : Error}
    (h : pack name code g limit = .error e) : e = .registerExhausted name limit := by
  unfold pack at h
  simp only at h
  split at h
  · cases h
    rfl
  · cases h

/-- The code of a method whose protected statements are tidy gets its leaves and its flow graph, and only
a full frame can stop it from reaching its final form. -/
theorem lowered_code_finishes (m : Method) (symbols : SymbolTable) (o : Options)
    (functions : FunctionTable) (f : LoweredFunction)
    (h : (lowerMethod m symbols o functions).1 = .ok f) (htidy : m.body.isTidy true true = true) :
    ∃ left g, insertLeaves f.code = .ok left ∧
      FlowGraph.build left.statements f.constants = .ok g ∧
      ∀ o' : Options,
        (∃ compiled, { f with code := left.statements }.finish o' = .ok compiled) ∨
          { f with code := left.statements }.finish o' =
            .error (.registerExhausted f.name o'.maxRegisters) := by
  have hwell : f.WellFormed true := wellFormed_of_lowerMethod h fun _ ↦ htidy
  obtain ⟨w, labels, need, hinserts, hleaves⟩ := hwell.exists_withLeaves
  obtain ⟨left, hleft, hpadded⟩ := bind_eq_ok.mp hleaves
  have hcode : left.statements = padded need f.code :=
    congrArg LoweredFunction.code (Except.ok.inj hpadded)
  obtain ⟨g, hg⟩ := hinserts.exists_build
  rw [← hcode] at hg
  refine ⟨left, g, hleft, hg, fun o' ↦ ?_⟩
  simp only [LoweredFunction.finish, hg, bind, Except.bind]
  cases hpack : pack f.name left.statements g o'.maxRegisters with
  | error e =>
    simp only [packCode, hpack]
    exact .inr (by rw [← pack_eq_error hpack])
  | ok packing =>
    obtain ⟨placed, hplaced⟩ := hwell.exists_place hinserts.shaped need packing o'
    rw [← hcode] at hplaced
    simp only [packCode, hpack, hplaced]
    exact .inl ⟨_, rfl⟩

private def drainNode (id : NodeId) : Node := ⟨id, Span.none⟩

private def drainCall (id : NodeId) (name : String) : Stmt :=
  .eval Span.none (.call (drainNode id) (.name (drainNode (id + 10)) name) [])

/-- `while (mode) { try { try { tick(); break; tick(); } finally { while (mode) continue; } }
catch { return; } }` -/
private def drainMethod : Method where
  index := 0
  name := "drain"
  isStatic := true
  params := [{ name := "mode", ty := .bool }]
  returnTy := .void
  body := .mk [.whileLoop Span.none (.name (drainNode 3) "mode") (.tryCatch Span.none
    (.mk [.tryCatch Span.none
      (.mk [drainCall 1 "tick", .breakOut Span.none, drainCall 2 "tick"] Span.none) []
      (some (.mk [.whileLoop Span.none (.name (drainNode 3) "mode") (.continueLoop Span.none)]
        Span.none))] Span.none)
    [.mk none none (.mk [.ret Span.none none] Span.none)] none)] Span.none

private def drainSymbols : SymbolTable where
  symbols := .ofList [(11, ⟨.method, "tick", .void, true, 7, false, true⟩),
    (12, ⟨.method, "tick", .void, true, 7, false, true⟩),
    (3, ⟨.parameter, "mode", .bool, false, 0, false, false⟩)]
  types := .ofList [(1, .void), (2, .void), (3, .bool)]

/-- A loop in two protected statements, left by `break` and by `return`, finishes or runs out of registers.
-/
theorem drain_code_finishes : drainMethod.body.isTidy true true = true ∧
    ∃ f left g, (lowerMethod drainMethod drainSymbols {} .empty).1 = .ok f ∧
      insertLeaves f.code = .ok left ∧ FlowGraph.build left.statements f.constants = .ok g ∧
      ∀ o' : Options,
        (∃ compiled, { f with code := left.statements }.finish o' = .ok compiled) ∨
          { f with code := left.statements }.finish o' =
            .error (.registerExhausted f.name o'.maxRegisters) := by
  have htidy : drainMethod.body.isTidy true true = true := by decide +kernel
  have hcheck : ((lowerMethod drainMethod drainSymbols {} .empty).1.toOption.any fun _ ↦ true) = true := by
    decide +kernel
  obtain ⟨f, hf, -⟩ := any_toOption.mp hcheck
  obtain ⟨left, g, hfinish⟩ := lowered_code_finishes drainMethod drainSymbols {} .empty f hf htidy
  exact ⟨htidy, f, left, g, hf, hfinish⟩

end MethodCompiler
