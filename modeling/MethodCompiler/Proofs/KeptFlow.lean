import MethodCompiler.Proofs.FormedCode

/-!
# What control flow reads of statements

Regions, labels, blocks and edges depend on the opcodes of statements, on the labels that they define and
name, and on their jump tables. A change of statements that keeps these keeps the flow graph. Numbers of
registers are none of them.
-/

namespace MethodCompiler

/-- A change of statements that keeps what control flow depends on. -/
structure KeepsFlow (φ : Statement → Statement) : Prop where
  op : ∀ s, (φ s).op = s.op
  label? : ∀ s, (φ s).label? = s.label?
  target? : ∀ s, (φ s).target? = s.target?
  descriptor : ∀ s position outer, Region.open? (φ s) position outer = Region.open? s position outer
  switchTargets : ∀ s constants,
    FlowGraph.switchTargets (φ s) constants = FlowGraph.switchTargets s constants

namespace KeepsFlow

variable {φ : Statement → Statement} (h : KeepsFlow φ)

include h

/-! ### Statements -/

private theorem isLabel (s : Statement) : (φ s).isLabel = s.isLabel := by
  rw [Statement.isLabel, Statement.isLabel, h.op]

/-- A tracker takes the same step at a statement whose flow is kept. -/
theorem step (t : RegionTracker) (s : Statement) (position : Nat) :
    t.step (φ s) position = t.step s position := by
  simp only [RegionTracker.step, h.label?, h.descriptor, h.op]

private theorem exit (s : Statement) (labels : LabelTable) : Exit.of? (φ s) labels = Exit.of? s labels := by
  simp only [Exit.of?, h.target?, h.op]

/-! ### Code -/

private theorem scanFrom (t : RegionTracker) (start : Nat) (code : List Statement) :
    RegionMap.scanFrom t start (code.map φ) = RegionMap.scanFrom t start code := by
  induction code generalizing t start with
  | nil => rfl
  | cons s rest ih => simp only [List.map_cons, RegionMap.scanFrom, h.step, ih]

/-- Labels stand in the same places where the flow is kept. -/
theorem labels (code : List Statement) : LabelTable.build (code.map φ) = LabelTable.build code := by
  have hentries : LabelTable.entriesFrom 0 (code.map φ) = LabelTable.entriesFrom 0 code := by
    simp only [LabelTable.entriesFrom, List.zipIdx_map, List.filterMap_map]
    congr 1
    funext e
    exact congrArg (Option.map (·, e.2)) (h.label? e.1)
  rw [LabelTable.build, LabelTable.build, hentries]

private theorem splitFrom (start position : Nat) (code : List Statement) :
    Block.splitFrom start position (code.map φ) = Block.splitFrom start position code := by
  induction code generalizing start position with
  | nil => rfl
  | cons s rest ih => simp only [List.map_cons, Block.splitFrom, h.isLabel, h.op, ih]

/-- The number of leaves at the head of some code. -/
theorem length_takeWhile_leave (code : List Statement) :
    ((code.map φ).takeWhile (·.op == .leave)).length = (code.takeWhile (·.op == .leave)).length := by
  rw [List.takeWhile_map, List.length_map, Function.comp_def]
  simp only [h.op]

end KeepsFlow

/-! ### Edges -/

namespace FlowGraph.Source

variable (φ : Statement → Statement)

/-- The same parts with the statements changed. -/
def mapCode (src : Source) : Source := { src with code := src.code.map φ }

variable {φ} (h : KeepsFlow φ) (src : Source) (id : Nat) (block : Block)

include h

private theorem targetBlock_mapCode (s : Statement) :
    (src.mapCode φ).targetBlock (φ s) = src.targetBlock s := by
  rw [targetBlock, targetBlock, h.target?, h.op]
  rfl

private theorem regionLeftBy_mapCode (position : Nat) :
    (src.mapCode φ).regionLeftBy position = src.regionLeftBy position := by
  simp only [regionLeftBy, mapCode, ← List.map_take, ← List.map_drop, ← List.map_reverse,
    h.length_takeWhile_leave, List.getElem?_map]
  cases src.code[position + ((src.code.drop position).takeWhile (·.op == .leave)).length]? with
  | none => rfl
  | some s => simp only [Option.map_some, h.exit]

private theorem terminalEdges_mapCode :
    (src.mapCode φ).terminalEdges id block = src.terminalEdges id block := by
  have hget : (src.mapCode φ).code[block.last]? = (src.code[block.last]?).map φ := List.getElem?_map
  simp only [terminalEdges, hget]
  cases src.code[block.last]? with
  | none => rfl
  | some s =>
    simp only [Option.map_some, targetBlock_mapCode h, regionLeftBy_mapCode h, h.switchTargets, h.op]
    rfl

private theorem blockEdges_mapCode : (src.mapCode φ).blockEdges id block = src.blockEdges id block := by
  rw [blockEdges, blockEdges, terminalEdges_mapCode h]
  rfl

private theorem any_op_mapCode (op : Opcode) (position : Nat) :
    ((src.mapCode φ).code[position]?).any (·.op == op) = (src.code[position]?).any (·.op == op) := by
  rw [mapCode, List.getElem?_map, Option.any_map]
  simp only [h.op]

private theorem continuations_mapCode (region : RegionId) :
    (src.mapCode φ).continuations region = src.continuations region := by
  simp only [continuations, any_op_mapCode h, regionLeftBy_mapCode h]
  rfl

private theorem cleanupEdges_mapCode : (src.mapCode φ).cleanupEdges id block = src.cleanupEdges id block := by
  simp only [cleanupEdges, any_op_mapCode h, continuations_mapCode h]
  rfl

end FlowGraph.Source

/-- A change that keeps what control flow depends on keeps the flow graph. -/
theorem KeepsFlow.build {φ : Statement → Statement} (h : KeepsFlow φ) (code : List Statement)
    (constants : List Value) :
    FlowGraph.build (code.map φ) constants = FlowGraph.build code constants := by
  have hblocks : Block.split (code.map φ) = Block.split code := h.splitFrom 0 0 code
  have hscan : RegionMap.scan (code.map φ) = RegionMap.scan code := h.scanFrom {} 0 code
  simp only [FlowGraph.build, hscan, h.labels, hblocks]
  congr 1
  funext regions
  congr 1
  funext labels
  have hedges (id : Nat) (block : Block) := FlowGraph.Source.blockEdges_mapCode h
    ⟨code, constants, labels, regions, Block.split code⟩ id block
  have hcleanups (id : Nat) (block : Block) := FlowGraph.Source.cleanupEdges_mapCode h
    ⟨code, constants, labels, regions, Block.split code⟩ id block
  simp only [FlowGraph.Source.mapCode] at hedges hcleanups
  simp only [hedges, hcleanups]

/-! ### Registers -/

variable (σ : Nat → Nat)

/-- Renumbering registers keeps the region that a statement opens. -/
theorem Region.open?_mapRegisters (s : Statement) (position : Nat) (outer : List (RegionId × Phase)) :
    Region.open? (s.mapRegisters σ) position outer = Region.open? s position outer := by
  rw [Region.open?, Region.open?, Statement.mapRegisters]
  rcases s.operands with _ | ⟨c, _ | ⟨f, _ | ⟨e, _ | ⟨o, rest⟩⟩⟩⟩
  · rfl
  · rfl
  · rfl
  · simp only [List.map_cons, List.map_nil, Operand.label?_mapRegister]
  · rfl

/-- Renumbering registers keeps the targets of a `switch`. -/
theorem FlowGraph.switchTargets_mapRegisters (s : Statement) (constants : List Value) :
    switchTargets (s.mapRegisters σ) constants = switchTargets s constants := by
  rw [switchTargets, switchTargets, Statement.mapRegisters]
  rcases s.operands with _ | ⟨a, _ | ⟨b, rest⟩⟩
  · rfl
  · rfl
  · cases b with
    | immediate v => cases v <;> rfl
    | _ => rfl

/-- Registers can get other numbers. -/
theorem keepsFlow_mapRegisters : KeepsFlow (·.mapRegisters σ) where
  op _ := rfl
  label? := Statement.label?_mapRegisters σ
  target? := Statement.target?_mapRegisters σ
  descriptor := Region.open?_mapRegisters σ
  switchTargets := FlowGraph.switchTargets_mapRegisters σ

end MethodCompiler
