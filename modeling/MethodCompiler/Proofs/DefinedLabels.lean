import MethodCompiler.Proofs.ResolvedLabels

/-!
# Labels of a method

Constructs number their labels, so no label of a method is defined twice. A jump, a handler and a jump
table lead to labels of the constructs around them, and each construct defines all of its own, so every
label that is named is defined.
-/

namespace MethodCompiler

variable {code : List Statement} {constants pool : List Value} {s : Statement} {l : String}

/-! ### Places to go to -/

/-- The statement leads to a label: as a branch, through its jump table, or to a part of its region. -/
def Statement.LeadsTo (pool : List Value) (s : Statement) (l : String) : Prop :=
  s.target? = some l ∨ (s.op = .switch ∧ l ∈ FlowGraph.switchTargets s pool) ∨
    (s.op = .enterTry ∧ .label l ∈ s.operands)

private theorem Statement.not_leadsTo (hbranch : s.op.isBranch = false) (hswitch : s.op ≠ .switch)
    (htry : s.op ≠ .enterTry) : ¬ s.LeadsTo pool l := by
  rintro (h | ⟨h, -⟩ | ⟨h, -⟩)
  · rw [isBranch_of_target? h] at hbranch
    cases hbranch
  · exact hswitch h
  · exact htry h

private theorem Statement.leadsTo_of_isBranch (hop : s.op.isBranch = true) (h : s.LeadsTo pool l) :
    s.target? = some l := by
  rcases h with h | ⟨h, -⟩ | ⟨h, -⟩
  · exact h
  all_goals
    rw [h] at hop
    cases hop

private theorem Statement.leadsTo_of_switch (hop : s.op = .switch) (h : s.LeadsTo pool l) :
    l ∈ FlowGraph.switchTargets s pool := by
  rcases h with h | ⟨-, h⟩ | ⟨h, -⟩
  · have hbranch := isBranch_of_target? h
    rw [hop] at hbranch
    cases hbranch
  · exact h
  · rw [hop] at h
    cases h

section Protected

variable {c f : Option String} {e : String} {body handler cleanup : List Statement}

/-- The labels of a protected construct are those of its parts and those that begin them. -/
private theorem labelsOf_protectedCode (hc : c = none → handler = []) (hf : f = none → cleanup = []) :
    labelsOf (protectedCode c f e body handler cleanup) =
      labelsOf body ++ ((c.toList ++ labelsOf handler) ++ ((f.toList ++ labelsOf cleanup) ++ [e])) := by
  have hhandler : labelsOf (c.elim [] fun c ↦ .label c :: handler) =
      c.toList ++ labelsOf handler := by
    cases c with
    | none =>
      rw [hc rfl]
      rfl
    | some c => rfl
  have hcleanup : labelsOf (f.elim [] fun f ↦ .label f :: (cleanup ++ [Statement.of .endFinally []])) =
      f.toList ++ labelsOf cleanup := by
    cases f with
    | none =>
      rw [hf rfl]
      rfl
    | some f =>
      have hend : labelsOf (cleanup ++ [Statement.of .endFinally []]) = labelsOf cleanup := by
        rw [labelsOf_append]
        exact List.append_nil _
      exact congrArg (f :: ·) hend
  rw [← hhandler, ← hcleanup, ← labelsOf_label e, ← labelsOf_append, ← labelsOf_append,
    ← labelsOf_append]
  rfl

end Protected

/-- A descriptor names the handler, the cleanup and the end, as far as there are any. -/
private theorem label_mem_descriptor {c f : Option String} {e : String} :
    .label l ∈ [Lowering.optionalLabel c, Lowering.optionalLabel f, .label e] ↔
      c = some l ∨ f = some l ∨ l = e := by
  have hoptional (o : Option String) : .label l = Lowering.optionalLabel o ↔ o = some l := by
    cases o with
    | none =>
      constructor <;>
      · intro h
        cases h
    | some name => simp [Lowering.optionalLabel, eq_comm]
  simp only [List.mem_cons, List.not_mem_nil, or_false, hoptional, Operand.label.injEq]

/-- The labels of the construct around are defined. -/
theorem Laid.own_subset {sealed : Bool} {targets near own : List String} {lo hi : Nat}
    (h : Laid sealed pool targets near lo hi own code) : ∀ l ∈ own, l ∈ labelsOf code := by
  obtain ⟨fresh, hfresh⟩ := h.freshLabels
  exact fun l hl ↦ hfresh.perm.mem_iff.mpr (List.mem_append_left _ hl)

/-- Laid out code leads to labels of its own and to labels of the constructs around. -/
theorem Laid.mem_of_leadsTo {sealed : Bool} {targets near own : List String} {lo hi : Nat}
    (h : Laid sealed pool targets near lo hi own code) :
    ∀ s ∈ code, ∀ l, s.LeadsTo pool l → l ∈ labelsOf code ∨ l ∈ targets ∨ l ∈ near := by
  induction h with
  | nil => exact List.forall_mem_nil _
  | append _ _ ih ih' =>
    intro s hs l hl
    rw [labelsOf_append, List.mem_append]
    rcases List.mem_append.mp hs with hs | hs
    · exact (ih s hs l hl).imp_left .inl
    · exact (ih' s hs l hl).imp_left .inr
  | @statement _ _ _ s hop =>
    refine List.forall_mem_singleton.mpr fun l hl ↦ absurd hl (Statement.not_leadsTo ?_ ?_ ?_)
    · revert hop
      cases s.op <;> decide
    all_goals
      intro h
      rw [h] at hop
      cases hop
  | @branch _ _ _ s _ hop htarget hmem _ =>
    refine List.forall_mem_singleton.mpr fun l hl ↦ .inr (.inl ?_)
    cases htarget.symm.trans (Statement.leadsTo_of_isBranch hop hl)
    exact hmem
  | @switch _ _ _ s hop hmem =>
    exact List.forall_mem_singleton.mpr fun l hl ↦
      .inr (.inr (hmem l (Statement.leadsTo_of_switch hop hl)))
  | label =>
    exact List.forall_mem_singleton.mpr fun l hl ↦
      absurd hl (Statement.not_leadsTo rfl Opcode.noConfusion Opcode.noConfusion)
  | construct _ hown hpart ih =>
    intro s hs l hl
    have hlabels (hmem : l ∈ _) := hpart.own_subset l (hown.mem_iff.mpr hmem)
    rcases ih s hs l hl with h | h | h
    · exact .inl h
    · exact (List.mem_append.mp h).imp hlabels .inl
    · exact (List.mem_append.mp h).imp hlabels .inr
  | @protect targets near clauses own n mid mid' hi c f e body handler cleanup _ _ _ _ hown hhandler hc
      _ _ hf ihb ihh ihc =>
    intro s hs l hl
    simp only [labelsOf_protectedCode hc hf, List.mem_append, Option.mem_toList, List.mem_singleton]
    rcases mem_protectedCode hs with rfl | hs | hs | hs | hop
    · rcases hl with h | ⟨h, -⟩ | ⟨-, h⟩
      · cases Statement.isBranch_of_target? h
      · cases h
      · rcases label_mem_descriptor.mp h with h | h | h <;> simp [h]
    · rcases ihb s hs l hl with h | h | h
      · exact .inl (.inl h)
      · rcases List.mem_cons.mp h with h | h <;> simp [h]
      · cases h
    · -- clauses of the handler begin inside it
      have hclauses (hmem : l ∈ clauses) := hhandler.own_subset l (hown.mem_iff.mpr hmem)
      have hlead : l ∈ labelsOf handler ∨ l ∈ e :: targets := by
        rcases ihh s hs l hl with h | h | h
        · exact .inl h
        · exact (List.mem_append.mp h).imp_left hclauses
        · exact .inl (hclauses h)
      rcases hlead with h | h
      · exact .inl (.inr (.inl (.inr h)))
      · rcases List.mem_cons.mp h with h | h <;> simp [h]
    · rcases ihc s hs l hl with h | h | h
      · exact .inl (.inr (.inr (.inl (.inr h))))
      · split at h
        · cases h
        · exact .inr (.inl h)
      · cases h
    · refine absurd hl (Statement.not_leadsTo ?_ ?_ ?_)
      all_goals
        rcases hop with hop | hop <;> rw [hop]
      all_goals
        first | rfl | exact Opcode.noConfusion

/-! ### Labels in operands and constants -/

namespace Value

mutual

private theorem namedLabels_of_hasLabel (v : Value) (h : v.hasLabel = false) : v.namedLabels = [] := by
  cases v with
  | label name => cases h
  | array elem items =>
    rw [hasLabel] at h
    rw [namedLabels, itemLabels_of_anyItemHasLabel items h]
  | table key value entries =>
    rw [hasLabel] at h
    rw [namedLabels, entryLabels_of_anyEntryHasLabel entries h]
  | _ => rfl

private theorem itemLabels_of_anyItemHasLabel (items : List Value) (h : anyItemHasLabel items = false) :
    itemLabels items = [] := by
  cases items with
  | nil => rfl
  | cons v rest =>
    rw [anyItemHasLabel, Bool.or_eq_false_iff] at h
    rw [itemLabels, namedLabels_of_hasLabel v h.1, itemLabels_of_anyItemHasLabel rest h.2,
      List.nil_append]

private theorem entryLabels_of_anyEntryHasLabel (entries : List (Value × Value))
    (h : anyEntryHasLabel entries = false) : entryLabels entries = [] := by
  cases entries with
  | nil => rfl
  | cons e rest =>
    obtain ⟨k, v⟩ := e
    rw [anyEntryHasLabel, Bool.or_eq_false_iff, Bool.or_eq_false_iff] at h
    rw [entryLabels, namedLabels_of_hasLabel k h.1.1, namedLabels_of_hasLabel v h.1.2,
      entryLabels_of_anyEntryHasLabel rest h.2, List.nil_append, List.nil_append]

end

/-- A jump table names the labels that it leads to. -/
private theorem IsJumpTable.namedLabels_eq {v : Value} (h : v.IsJumpTable) :
    v.namedLabels = FlowGraph.tableTargets v := by
  obtain ⟨key, value, entries, rfl, hentries⟩ := h
  rw [namedLabels, FlowGraph.tableTargets]
  induction entries with
  | nil => rfl
  | cons e rest ih =>
    obtain ⟨⟨hkey, name, hvalue⟩, hrest⟩ := List.forall_mem_cons.mp hentries
    obtain ⟨k, v⟩ := e
    cases hvalue
    rw [entryLabels, FlowGraph.entryTargets, namedLabels_of_hasLabel k hkey, ih hrest,
      List.nil_append, namedLabels, FlowGraph.tableTargets]

end Value

private theorem Operand.Sound.namedLabels_eq_nil {a : Operand} {n : Nat} (h : a.Sound n) :
    a.namedLabels = [] := by
  cases a with
  | label name => cases h
  | immediate v => exact Value.namedLabels_of_hasLabel v h
  | _ => rfl

namespace Statement

/-- An operand that names a label is the target of a branch, or belongs to a label or a descriptor. -/
private theorem Formed.leadsTo_of_mem_namedLabels (h : s.Formed constants) (hop : s.op ≠ .label)
    {a : Operand} (ha : a ∈ s.operands) (hl : l ∈ a.namedLabels) :
    (s.op.isBranch = true ∨ s.op = .enterTry) ∧ s.LeadsTo constants l := by
  by_cases htry : s.op = .enterTry
  · obtain ⟨c, f, e, hoperands⟩ := h.handler htry
    have hoptional (o : Option String) (hl : l ∈ (Lowering.optionalLabel o).namedLabels) :
        Lowering.optionalLabel o = .label l := by
      cases o with
      | none => cases hl
      | some name => rw [List.mem_singleton.mp hl, Lowering.optionalLabel]
    have hlabel : a = .label l := by
      simp only [hoperands, List.mem_cons, List.not_mem_nil, or_false] at ha
      rcases ha with rfl | rfl | rfl
      · exact hoptional c hl
      · exact hoptional f hl
      · exact hoptional (some e) hl
    exact ⟨.inr htry, .inr (.inr ⟨htry, hlabel ▸ ha⟩)⟩
  rcases h.mem_data_or_target hop htry ha with ha | ⟨name, htarget, rfl⟩
  · rw [(h.data a ha).namedLabels_eq_nil] at hl
    cases hl
  · cases List.mem_singleton.mp hl
    exact ⟨.inl (isBranch_of_target? htarget), .inl htarget⟩

end Statement

namespace LoweredFunction.WellFormed

variable {f : LoweredFunction} {sealed : Bool}

/-- What a statement of a method leads to is the place of one label. -/
theorem count_of_leadsTo (h : f.WellFormed sealed) (hs : s ∈ f.code)
    (hl : s.LeadsTo f.constants l) : (labelsOf f.code).count l = 1 := by
  obtain ⟨n, hlaid⟩ := h.laid
  have hmem := hlaid.mem_of_leadsTo s.bare (List.mem_map_of_mem hs) l hl
  rw [labelsOf_map_bare] at hmem
  simp only [List.not_mem_nil, or_false] at hmem
  exact List.count_eq_one_of_mem h.nodup_labelsOf hmem

/-- A constant that names labels is the jump table of some `switch`, and leads to one label each. -/
theorem count_of_mem_constants (h : f.WellFormed sealed) {v : Value} (hv : v ∈ f.constants)
    (hl : l ∈ v.namedLabels) : (labelsOf f.code).count l = 1 := by
  obtain ⟨k, hk⟩ := List.getElem?_of_mem hv
  rcases h.constants k v hk with hnone | ⟨htable, s, hs, hs'⟩
  · rw [Value.namedLabels_of_hasLabel v hnone] at hl
    cases hl
  · rw [htable.namedLabels_eq, ← Statement.switchTargets_of_table? hs' hk] at hl
    exact h.count_of_leadsTo hs (.inr (.inl ⟨(Statement.table?_eq_some hs').1, hl⟩))

end LoweredFunction.WellFormed

/-- In the code of a method no label is defined twice. Apart from their definitions, labels are named by
branches, descriptors of regions and constants only, and each label that is named is defined. -/
theorem lowered_labels_defined (m : Method) (symbols : SymbolTable) (o : Options)
    (functions : FunctionTable) (f : LoweredFunction)
    (h : (lowerMethod m symbols o functions).1 = .ok f) :
    ((∀ s ∈ f.code, s.op = .label → ∃ l, s.operands = [.label l]) ∧ (labelsOf f.code).Nodup) ∧
      (∀ s ∈ f.code, s.op.isBranch = true ∨ s.op = .enterTry →
        ∀ l ∈ s.namedLabels, (labelsOf f.code).count l = 1) ∧
      (∀ v ∈ f.constants, ∀ l ∈ v.namedLabels, (labelsOf f.code).count l = 1) ∧
      ∀ s ∈ f.code, s.namedLabels ≠ [] →
        s.op = .label ∨ s.op.isBranch = true ∨ s.op = .enterTry := by
  have hwell : f.WellFormed false := wellFormed_of_lowerMethod h Bool.noConfusion
  have hnamed {s : Statement} {l : String} (hs : s ∈ f.code) (hop : s.op ≠ .label)
      (hl : l ∈ s.namedLabels) :
      (s.op.isBranch = true ∨ s.op = .enterTry) ∧ s.LeadsTo f.constants l := by
    obtain ⟨a, ha, hl⟩ := List.mem_flatMap.mp hl
    exact (hwell.sound s hs).toFormed.leadsTo_of_mem_namedLabels hop ha hl
  refine ⟨⟨fun s hs ↦ (hwell.sound s hs).label, hwell.nodup_labelsOf⟩, ?_, ?_, ?_⟩
  · intro s hs hop l hl
    have hlabel : s.op ≠ .label := by
      intro hlabel
      rw [hlabel] at hop
      rcases hop with hop | hop <;> cases hop
    exact hwell.count_of_leadsTo hs (hnamed hs hlabel hl).2
  · exact fun v hv l hl ↦ hwell.count_of_mem_constants hv hl
  · intro s hs hne
    obtain ⟨l, hl⟩ := List.exists_mem_of_ne_nil _ hne
    by_cases hlabel : s.op = .label
    · exact .inl hlabel
    · exact .inr (hnamed hs hlabel hl).1

/-- `while (quiet) { try { switch (name) { case "stop": break; } } }` -/
private def probeMethod : Method where
  index := 0
  name := "probe"
  isStatic := true
  params := [{ name := "name", ty := .string }, { name := "quiet", ty := .bool }]
  returnTy := .void
  body := .mk [.whileLoop Span.none (.name ⟨2, Span.none⟩ "quiet") (.tryCatch Span.none
    (.mk [.switch Span.none (.name ⟨1, Span.none⟩ "name")
      [.mk [.case (.string "stop")] [.breakOut Span.none]]] Span.none)
    [] none)] Span.none

private def probeSymbols : SymbolTable where
  symbols := .ofList [(1, ⟨.parameter, "name", .string, false, 0, false, false⟩),
    (2, ⟨.parameter, "quiet", .bool, false, 1, false, false⟩)]
  types := .ofList [(1, .string), (2, .bool)]

/-- A region without a handler and a jump table have their labels too. -/
theorem probe_labels_defined :
    ∃ f, (lowerMethod probeMethod probeSymbols {} .empty).1 = .ok f ∧ (labelsOf f.code).Nodup ∧
      (∃ s ∈ f.code, s.op = .enterTry ∧ s.namedLabels = ["try1_end"]) ∧
      (labelsOf f.code).count "try1_end" = 1 ∧
      (∃ v ∈ f.constants, v.namedLabels = ["switch2_case0"]) ∧
      (labelsOf f.code).count "switch2_case0" = 1 := by
  have hcheck : ((lowerMethod probeMethod probeSymbols {} .empty).1.toOption.any fun f ↦
      f.code.any (fun s : Statement ↦ decide (s.op = .enterTry ∧ s.namedLabels = ["try1_end"])) &&
      f.constants.any fun v : Value ↦ decide (v.namedLabels = ["switch2_case0"])) = true := by
    decide +kernel
  obtain ⟨f, hf, hcheck⟩ := any_toOption.mp hcheck
  simp only [Bool.and_eq_true, List.any_eq_true, decide_eq_true_eq] at hcheck
  obtain ⟨⟨s, hs, hop, hnamed⟩, v, hv, hnamed'⟩ := hcheck
  obtain ⟨⟨-, hnodup⟩, htry, htable, -⟩ :=
    lowered_labels_defined probeMethod probeSymbols {} .empty f hf
  refine ⟨f, hf, hnodup, ⟨s, hs, hop, hnamed⟩, htry s hs (.inr hop) _ ?_, ⟨v, hv, hnamed'⟩,
    htable v hv _ ?_⟩
  · rw [hnamed]
    exact List.mem_singleton_self _
  · rw [hnamed']
    exact List.mem_singleton_self _

end MethodCompiler
