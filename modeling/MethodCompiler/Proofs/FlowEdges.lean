import MethodCompiler.Flow.Graph
import MethodCompiler.Proofs.BlockCover
import MethodCompiler.Proofs.Success

/-!
# Where edges come from and where they lead

An edge of a flow graph is one that the last statement of its block, a handler around it or the end of
a cleanup makes. It leads to a label, or from a block to the one that follows it in the code.
-/

namespace MethodCompiler

/-! ### Label tables -/

namespace LabelTable

/-- A table has a label at the position of the statement that defines it. -/
theorem mem_entriesFrom {code : List Statement} {start i : Nat} {name : String} :
    (name, i) ∈ entriesFrom start code ↔
      start ≤ i ∧ ∃ s, code[i - start]? = some s ∧ s.label? = some name := by
  simp only [entriesFrom, List.mem_filterMap, Prod.exists, Option.map_eq_some_iff, Prod.mk.injEq,
    List.mk_mem_zipIdx_iff_le_and_getElem?_sub]
  constructor
  · rintro ⟨s, k, ⟨hle, hs⟩, l, hl, rfl, rfl⟩
    exact ⟨hle, s, hs, hl⟩
  · rintro ⟨hle, s, hs, hl⟩
    exact ⟨s, i, ⟨hle, hs⟩, name, hl, rfl, rfl⟩

private theorem eq_entriesFrom_of_build {code : List Statement} {table : LabelTable}
    (h : build code = .ok table) : table = entriesFrom 0 code := by
  simp only [build] at h
  split at h
  · cases h
  · exact (Except.ok.inj h).symm

/-- A label that resolves stands at its position. -/
theorem label_of_resolve {code : List Statement} {table : LabelTable} {name : String} {i : Nat}
    (ht : build code = .ok table) (h : table.resolve name = .ok i) :
    ∃ s, code[i]? = some s ∧ s.label? = some name := by
  simp only [resolve, get?] at h
  split at h
  · next k hk =>
    obtain ⟨⟨n, j⟩, hf, rfl⟩ := Option.map_eq_some_iff.mp hk
    have hn : n = name := by simpa using List.find?_some hf
    have hm := List.mem_of_find?_eq_some hf
    subst hn
    cases h
    rw [eq_entriesFrom_of_build ht, mem_entriesFrom] at hm
    simpa using hm.2
  · cases h

end LabelTable

namespace FlowGraph

/-! ### Edges of the graph -/

private theorem mem_of_mem_dedup {edges : List Edge} {e : Edge} (h : e ∈ dedup edges) :
    e ∈ edges := by
  induction edges with
  | nil => exact h
  | cons a rest ih =>
    rcases List.mem_cons.mp h with rfl | h
    · exact List.mem_cons_self
    · exact List.mem_cons_of_mem a (ih (List.mem_filter.mp h).1)

private theorem exists_mem_dedup {edges : List Edge} {e : Edge} (h : e ∈ edges) :
    ∃ k, ⟨e.source, e.target, k⟩ ∈ dedup edges := by
  induction edges with
  | nil => cases h
  | cons a rest ih =>
    by_cases hs : e.source = a.source ∧ e.target = a.target
    · exact ⟨a.kind, by rw [hs.1, hs.2]; exact List.mem_cons_self⟩
    · have hr : e ∈ rest := by
        rcases List.mem_cons.mp h with rfl | hr
        · exact absurd ⟨rfl, rfl⟩ hs
        · exact hr
      obtain ⟨k, hk⟩ := ih hr
      refine ⟨k, List.mem_cons_of_mem a (List.mem_filter.mpr ⟨hk, ?_⟩)⟩
      simpa using Decidable.not_and_iff_not_or_not.mp hs

private theorem mem_insertEdge {g : FlowGraph} {e a : Edge} {l : List Edge} :
    a ∈ g.insertEdge e l ↔ a = e ∨ a ∈ l := by
  induction l with
  | nil => simp [insertEdge]
  | cons next rest ih =>
    rw [insertEdge]
    split
    · exact List.mem_cons
    · rw [List.mem_cons, ih, List.mem_cons]
      exact or_left_comm

private theorem mem_edgesFrom {g : FlowGraph} {id : Nat} {e : Edge} :
    e ∈ g.edgesFrom id ↔ e ∈ g.edges ∧ e.source = id := by
  have hsorted (l : List Edge) : e ∈ l.foldr g.insertEdge [] ↔ e ∈ l := by
    induction l with
    | nil => rfl
    | cons a rest ih => rw [List.foldr_cons, mem_insertEdge, ih, List.mem_cons]
  rw [edgesFrom, hsorted, List.mem_filter, beq_iff_eq]

/-- The successors of a block are the targets of its edges. -/
theorem mem_successors {g : FlowGraph} {id s : Nat} :
    s ∈ g.successors id ↔ ∃ k, ⟨id, .block s, k⟩ ∈ g.edges := by
  simp only [successors, List.mem_filterMap, mem_edgesFrom]
  constructor
  · rintro ⟨⟨a, t, k⟩, ⟨he, rfl⟩, ht⟩
    cases t with
    | block b =>
      obtain rfl : b = s := by simpa using ht
      exact ⟨k, he⟩
    | exit => cases ht
  · rintro ⟨k, he⟩
    exact ⟨_, ⟨he, rfl⟩, rfl⟩

/-- The parts from which a graph was built. -/
structure BuiltFrom (src : Source) (g : FlowGraph) : Prop where
  regions_eq : RegionMap.scan src.code = .ok src.regions
  labels_eq : LabelTable.build src.code = .ok src.labels
  blocks_eq : src.blocks = Block.split src.code
  graph_regions : g.regions = src.regions
  graph_blocks : g.blocks = src.blocks
  /-- The edges out of every block were found. -/
  block_edges : ∀ id b, src.blocks[id]? = some b →
    (∃ es, src.blockEdges id b = .ok es) ∧ ∃ es, src.cleanupEdges id b = .ok es
  edge_iff : ∀ id n, (∃ k, ⟨id, n, k⟩ ∈ g.edges) ↔ ∃ b es k, src.blocks[id]? = some b ∧
    (src.blockEdges id b = .ok es ∨ src.cleanupEdges id b = .ok es) ∧ ⟨id, n, k⟩ ∈ es

namespace Source

variable {src : Source} {id t : Nat} {b : Block} {n : FlowNode} {k : EdgeKind}

private theorem source_of_mem_blockEdges {es : List Edge} {e : Edge}
    (h : src.blockEdges id b = .ok es) (he : e ∈ es) : e.source = id := by
  simp only [blockEdges] at h
  obtain ⟨ts, -, h⟩ := bind_eq_ok.mp h
  obtain ⟨xs, -, h⟩ := bind_eq_ok.mp h
  rw [pure_eq_ok] at h
  subst h
  obtain ⟨_, -, rfl⟩ := List.mem_map.mp he
  rfl

private theorem source_of_mem_cleanupEdges {es : List Edge} {e : Edge}
    (h : src.cleanupEdges id b = .ok es) (he : e ∈ es) : e.source = id := by
  simp only [cleanupEdges] at h
  split at h
  · split at h
    · cases h
    · split at h
      · obtain rfl := Except.ok.inj h
        obtain rfl := List.mem_singleton.mp he
        rfl
      · obtain rfl := Except.ok.inj h
        obtain ⟨_, -, rfl⟩ := List.mem_map.mp he
        rfl
  · obtain rfl := Except.ok.inj h
    cases he

end Source

/-- A graph that was built has the parts that its code and constants give. -/
theorem builtFrom_of_build {code : List Statement} {constants : List Value} {g : FlowGraph}
    (h : build code constants = .ok g) :
    ∃ src : Source, src.code = code ∧ src.constants = constants ∧ BuiltFrom src g := by
  simp only [build] at h
  obtain ⟨regions, hr, h⟩ := bind_eq_ok.mp h
  obtain ⟨labels, hl, h⟩ := bind_eq_ok.mp h
  obtain ⟨ess, hes, h⟩ := bind_eq_ok.mp h
  obtain ⟨css, hcs, h⟩ := bind_eq_ok.mp h
  rw [pure_eq_ok] at h
  subst h
  obtain ⟨hes, hes'⟩ := mem_mapM_ok hes
  obtain ⟨hcs, hcs'⟩ := mem_mapM_ok hcs
  refine ⟨⟨code, constants, labels, regions, Block.split code⟩, rfl, rfl, hr, hl, rfl, rfl, rfl,
    ?_, ?_⟩
  · intro id b hb
    have hm := List.mk_mem_zipIdx_iff_getElem?.mpr hb
    obtain ⟨es, -, he⟩ := hes' _ hm
    obtain ⟨cs, -, hc⟩ := hcs' _ hm
    exact ⟨⟨es, he⟩, cs, hc⟩
  · intro id n
    constructor
    · rintro ⟨k, he⟩
      rcases List.mem_append.mp (mem_of_mem_dedup he) with he | he
      · obtain ⟨es, hm, he⟩ := List.mem_flatten.mp he
        obtain ⟨⟨b, id'⟩, hb, hf⟩ := hes es hm
        obtain rfl : id = id' := Source.source_of_mem_blockEdges hf he
        exact ⟨b, es, k, List.mk_mem_zipIdx_iff_getElem?.mp hb, .inl hf, he⟩
      · obtain ⟨es, hm, he⟩ := List.mem_flatten.mp he
        obtain ⟨⟨b, id'⟩, hb, hf⟩ := hcs es hm
        obtain rfl : id = id' := Source.source_of_mem_cleanupEdges hf he
        exact ⟨b, es, k, List.mk_mem_zipIdx_iff_getElem?.mp hb, .inr hf, he⟩
    · rintro ⟨b, es, k, hb, hf, he⟩
      have hm := List.mk_mem_zipIdx_iff_getElem?.mpr hb
      apply exists_mem_dedup (e := ⟨id, n, k⟩)
      rw [List.mem_append]
      rcases hf with hf | hf
      · obtain ⟨es', hm', hf'⟩ := hes' _ hm
        obtain rfl : es = es' := Except.ok.inj (hf.symm.trans hf')
        exact .inl (List.mem_flatten.mpr ⟨es, hm', he⟩)
      · obtain ⟨es', hm', hf'⟩ := hcs' _ hm
        obtain rfl : es = es' := Except.ok.inj (hf.symm.trans hf')
        exact .inr (List.mem_flatten.mpr ⟨es, hm', he⟩)

/-- The blocks of a graph are those that the code is split into. -/
theorem blocks_of_build {code : List Statement} {constants : List Value} {g : FlowGraph}
    (h : build code constants = .ok g) : g.blocks = Block.split code := by
  obtain ⟨src, rfl, -, hsrc⟩ := builtFrom_of_build h
  rw [hsrc.graph_blocks, hsrc.blocks_eq]

/-! ### Targets of edges -/

namespace Source

variable {src : Source} {id t : Nat} {b : Block} {n : FlowNode} {k : EdgeKind}

/-- Where the last statement of a block or a handler around it can send control: out of the function,
to the next block, or to the block of a label. -/
inductive Target (src : Source) (id : Nat) : FlowNode → Prop
  | exit : Target src id .exit
  | next : id + 1 < src.blocks.length → Target src id (.block (id + 1))
  | label {name : String} {t : Nat} : src.labelBlock name = .ok t → Target src id (.block t)

/-- Every edge that a successful computation finds has a proper target. -/
def Leads (src : Source) (id : Nat) (x : Except Error (List (FlowNode × EdgeKind))) : Prop :=
  ∀ es, x = .ok es → ∀ e ∈ es, Target src id e.1

private theorem leads_pure {es : List (FlowNode × EdgeKind)} (h : ∀ e ∈ es, Target src id e.1) :
    Leads src id (pure es) := by
  intro es' he
  rw [pure_eq_ok] at he
  rwa [← he]

private theorem leads_bind {α : Type} {x : Except Error α}
    {f : α → Except Error (List (FlowNode × EdgeKind))}
    (h : ∀ a, x = .ok a → Leads src id (f a)) : Leads src id (x >>= f) := by
  intro es he
  obtain ⟨a, ha, hf⟩ := bind_eq_ok.mp he
  exact h a ha es hf

private theorem target_of_targetBlock {s : Statement} (h : src.targetBlock s = .ok t) :
    Target src id (.block t) := by
  unfold targetBlock at h
  split at h
  · exact .label h
  · cases h

private theorem target_of_catchingBlock {state : RegionState}
    (h : src.catchingBlock? state = .ok (some t)) : Target src id (.block t) := by
  simp only [catchingBlock?] at h
  split at h
  · obtain ⟨t', ht, h⟩ := bind_eq_ok.mp h
    obtain rfl := Option.some.inj (pure_eq_ok.mp h)
    exact .label ht
  · cases pure_eq_ok.mp h

private theorem leads_throw {state : RegionState} :
    Leads src id (do
      match ← src.catchingBlock? state with
      | some handler => return [(.block handler, .throw)]
      | none => return [(.exit, .throw)]) := by
  refine leads_bind fun handler hh ↦ ?_
  cases handler with
  | some t => exact leads_pure (List.forall_mem_singleton.mpr (target_of_catchingBlock hh))
  | none => exact leads_pure (List.forall_mem_singleton.mpr .exit)

private theorem leads_terminalEdges : Leads src id (src.terminalEdges id b) := by
  have hnext : ∀ e ∈ if id + 1 < src.blocks.length then
      [(FlowNode.block (id + 1), EdgeKind.fallthrough)] else [], Target src id e.1 := by
    split
    · next hlt => exact List.forall_mem_singleton.mpr (.next hlt)
    · exact List.forall_mem_nil _
  have happend {es : List (FlowNode × EdgeKind)} (h : ∀ e ∈ es, Target src id e.1) :
      Leads src id (pure ((if id + 1 < src.blocks.length then
        [(FlowNode.block (id + 1), EdgeKind.fallthrough)] else []) ++ es)) :=
    leads_pure (List.forall_mem_append.mpr ⟨hnext, h⟩)
  simp only [terminalEdges]
  split
  · exact leads_pure hnext
  · next s _ =>
    split
    · exact leads_bind fun t ht ↦ happend (List.forall_mem_singleton.mpr (target_of_targetBlock ht))
    · split
      · exact leads_bind fun t ht ↦
          leads_pure (List.forall_mem_singleton.mpr (target_of_targetBlock ht))
      · refine leads_bind fun region _ ↦ ?_
        split
        · exact leads_bind fun t ht ↦ happend (List.forall_mem_singleton.mpr (.label ht))
        · exact leads_pure hnext
      · exact leads_throw
      · exact leads_throw
      · refine leads_bind fun targets hts ↦ happend ?_
        intro e he
        obtain ⟨t, ht, rfl⟩ := List.mem_map.mp he
        obtain ⟨name, -, hname⟩ := (mem_mapM_ok hts).1 t ht
        exact .label hname
      · exact leads_pure (List.forall_mem_nil _)
      · exact leads_pure (List.forall_mem_nil _)
      · exact leads_pure hnext

private theorem leads_exceptionalEdges : Leads src id (src.exceptionalEdges id b) := by
  simp only [exceptionalEdges]
  split
  · exact leads_pure (List.forall_mem_nil _)
  · refine leads_bind fun handler hh ↦ leads_pure ?_
    split
    · exact List.forall_mem_nil _
    · exact List.forall_mem_singleton.mpr (.label hh)

private theorem target_of_mem_blockEdges {es : List Edge} (h : src.blockEdges id b = .ok es)
    (he : ⟨id, n, k⟩ ∈ es) : Target src id n := by
  simp only [blockEdges] at h
  obtain ⟨ts, hts, h⟩ := bind_eq_ok.mp h
  obtain ⟨xs, hxs, h⟩ := bind_eq_ok.mp h
  rw [pure_eq_ok] at h
  subst h
  obtain ⟨e, hm, heq⟩ := List.mem_map.mp he
  obtain rfl : e.1 = n := by simpa using congrArg Edge.target heq
  rcases List.mem_append.mp hm with hm | hm
  · exact leads_terminalEdges ts hts e hm
  · exact leads_exceptionalEdges xs hxs e hm

/-- A cleanup returns to the block right after one that ends in a `leave`. -/
private theorem leave_before_of_mem_cleanupEdges {es : List Edge} (h : src.cleanupEdges id b = .ok es)
    (he : ⟨id, .block t, k⟩ ∈ es) : ∃ id' b', t = id' + 1 ∧ id' + 1 < src.blocks.length ∧
      src.blocks[id']? = some b' ∧ (src.code[b'.last]?).any (·.op == .leave) = true := by
  simp only [cleanupEdges] at h
  split at h
  · split at h
    · cases h
    · split at h
      · obtain rfl := Except.ok.inj h
        cases List.mem_singleton.mp he
      · obtain rfl := Except.ok.inj h
        obtain ⟨t', ht, heq⟩ := List.mem_map.mp he
        obtain rfl : t' = t := by simpa using congrArg Edge.target heq
        obtain ⟨⟨b', id'⟩, hm, hc⟩ := List.mem_filterMap.mp ht
        simp only [Option.ite_none_right_eq_some, Bool.and_eq_true, decide_eq_true_eq] at hc
        obtain ⟨⟨⟨hl, -⟩, hlt⟩, ht⟩ := hc
        obtain rfl := Option.some.inj ht
        exact ⟨id', b', rfl, hlt, List.mk_mem_zipIdx_iff_getElem?.mp hm, hl⟩
  · obtain rfl := Except.ok.inj h
    cases he

/-- A block that ends in a `leave` has an edge to the next block. -/
private theorem next_mem_of_leave {es : List Edge} (hlt : id + 1 < src.blocks.length)
    (hl : (src.code[b.last]?).any (·.op == .leave) = true) (h : src.blockEdges id b = .ok es) :
    ⟨id, .block (id + 1), .fallthrough⟩ ∈ es := by
  obtain ⟨s, hs, hop⟩ := (Option.any_eq_true _ _).mp hl
  have hop : s.op = .leave := by simpa using hop
  simp only [blockEdges] at h
  obtain ⟨ts, hts, h⟩ := bind_eq_ok.mp h
  obtain ⟨xs, -, h⟩ := bind_eq_ok.mp h
  rw [pure_eq_ok] at h
  subst h
  refine List.mem_map.mpr ⟨(.block (id + 1), .fallthrough), List.mem_append_left _ ?_, rfl⟩
  simp only [terminalEdges, hs, hop, Opcode.isConditionalBranch, hlt] at hts
  obtain ⟨r, -, hts⟩ := bind_eq_ok.mp hts
  split at hts
  · obtain ⟨f, -, hts⟩ := bind_eq_ok.mp hts
    rw [pure_eq_ok] at hts
    rw [← hts]
    simp
  · rw [pure_eq_ok] at hts
    rw [← hts]
    simp

end Source

/-- Control enters a block at a label, or the block is a successor of the one before it. -/
theorem BuiltFrom.entry {src : Source} {g : FlowGraph} (h : BuiltFrom src g) {id t : Nat}
    {b : Block} (ht : t ∈ g.successors id) (hb : g.blocks[t]? = some b) :
    (∃ s, src.code[b.start]? = some s ∧ s.isLabel = true) ∨
      ∃ id', t = id' + 1 ∧ t ∈ g.successors id' := by
  obtain ⟨c, es, k, hc, hes, he⟩ := (h.edge_iff id (.block t)).mp (mem_successors.mp ht)
  rcases hes with hes | hes
  · cases Source.target_of_mem_blockEdges hes he with
    | next _ => exact .inr ⟨id, rfl, ht⟩
    | label hl =>
      obtain ⟨i, hi, hl⟩ := bind_eq_ok.mp hl
      obtain ⟨s, hs, hname⟩ := LabelTable.label_of_resolve h.labels_eq hi
      have hlabel : s.isLabel = true := by
        unfold Statement.label? at hname
        split at hname
        · next hl => exact hl
        · cases hname
      obtain ⟨b', hb', hst⟩ := Block.start_of_isLabel hs hlabel
      rw [pure_eq_ok, h.blocks_eq] at hl
      rw [h.graph_blocks, h.blocks_eq, ← hl, hb'] at hb
      obtain rfl := Option.some.inj hb
      exact .inl ⟨s, by rw [hst]; exact hs, hlabel⟩
  · obtain ⟨id', b', rfl, hlt, hb', hl⟩ := Source.leave_before_of_mem_cleanupEdges hes he
    obtain ⟨es', hes'⟩ := (h.block_edges id' b' hb').1
    refine .inr ⟨id', rfl, mem_successors.mpr ((h.edge_iff id' _).mpr ?_)⟩
    exact ⟨b', es', _, hb', .inl hes', Source.next_mem_of_leave hlt hl hes'⟩

end FlowGraph

end MethodCompiler
