import MethodCompiler.Flow.Block
import MethodCompiler.Region.Exit

/-!
# Control flow between basic blocks

The edges of a block come from its last statement. Protected code has an edge to its handler as
well, because any of its statements may raise. One further node stands for leaving the function by
an exception.
-/

namespace MethodCompiler

/-- Why control goes from one block to another. -/
inductive EdgeKind where
  | fallthrough
  | branch
  /-- A `leave` runs the cleanup of the region that it leaves. -/
  | leave
  /-- The end of a cleanup returns to the code after the `leave` that started it. -/
  | endFinally
  | throw
  | switch
  /-- A protected statement may raise. -/
  | exceptional
  deriving DecidableEq, Repr, Inhabited

/-- Where an edge goes. -/
inductive FlowNode where
  | block (id : Nat)
  /-- Control leaves the function by an exception that nothing handles. -/
  | exit
  deriving DecidableEq, Repr, Inhabited

/-- An edge of a flow graph. -/
structure Edge where
  source : Nat
  target : FlowNode
  kind : EdgeKind
  deriving DecidableEq, Repr, Inhabited

/-- Code cut into blocks, with its regions and the edges between blocks. -/
structure FlowGraph where
  blocks : List Block
  regions : RegionMap
  /-- At most one edge from a block to a node, in the order in which they were found. -/
  edges : List Edge
  deriving DecidableEq, Repr, Inhabited

namespace FlowGraph

mutual

/-- The labels that a jump table leads to; keys of a table lead nowhere. -/
def tableTargets : Value → List String
  | .label name => [name]
  | .array _ items => itemTargets items
  | .table _ _ entries => entryTargets entries
  | _ => []

def itemTargets : List Value → List String
  | [] => []
  | v :: rest => tableTargets v ++ itemTargets rest

def entryTargets : List (Value × Value) → List String
  | [] => []
  | (_, v) :: rest => tableTargets v ++ entryTargets rest

end

/-- The labels that a `switch` can go to through its jump table. -/
def switchTargets (s : Statement) (constants : List Value) : List String :=
  match s.operands with
  | _ :: .constant k :: _ => (constants[k]?).elim [] tableTargets
  | _ :: .immediate v :: _ => tableTargets v
  | _ => []

/-- What the edges of a block depend on. -/
structure Source where
  code : List Statement
  constants : List Value
  labels : LabelTable
  regions : RegionMap
  blocks : List Block

namespace Source

/-- The block of a label. -/
def labelBlock (src : Source) (label : String) : Except Error Nat :=
  return Block.indexOf src.blocks (← src.labels.resolve label)

/-- The block that a branch goes to. -/
def targetBlock (src : Source) (s : Statement) : Except Error Nat :=
  match s.target? with
  | some label => src.labelBlock label
  | none => .error (.unresolvedLabel ("<" ++ s.op.mnemonic ++ " without target>"))

/-- The region that the `leave` at a position leaves. Leaves stand in runs before the transfer that
they serve, and the `k`-th leave of a run belongs to the `k`-th region of its exit chain. Any other
leave exits the innermost regions that are not in their cleanup, one after the other. -/
def regionLeftBy (src : Source) (position : Nat) : Except Error RegionId := do
  let k := ((src.code.take position).reverse.takeWhile (·.op == .leave)).length
  let run := ((src.code.drop position).takeWhile (·.op == .leave)).length
  let transfer := position + run
  let chain ← match src.code[transfer]? with
    | none => pure []
    | some s =>
      match ← Exit.of? s src.labels with
      | none => pure []
      | some exit =>
        let stack := stackAt src.regions.regions (src.regions.stateAt transfer)
        exitChain src.regions.regions exit src.labels transfer stack
  match chain[k]? with
  | some region => return region
  | none =>
    let stack := stackAt src.regions.regions (src.regions.stateAt position)
    match (stack.filter (·.2 != .inFinally))[k]? with
    | some (region, _) => return region
    | none => throw (.regionMismatch position .leaveOutside)

/-- The block of the nearest handler that catches an exception raised at a state: that of the first
region in its protected part that has a catch label. -/
def catchingBlock? (src : Source) (state : RegionState) : Except Error (Option Nat) :=
  let handlers := (stackAt src.regions.regions state).filterMap fun (id, phase) ↦
    if phase == .inTry then (src.regions.regions[id]?).bind (·.catchLabel) else none
  match handlers.head? with
  | some label => return some (← src.labelBlock label)
  | none => return none

/-- The label that an exception raised by protected code reaches first. -/
def handlerLabel? (src : Source) (state : RegionState) : Option String :=
  match state with
  | none => none
  | some (id, phase) =>
    match src.regions.regions[id]?, phase with
    | some region, .inTry => region.catchLabel.or region.finallyLabel
    | some region, .inCatch => region.finallyLabel
    | _, _ => none

/-- The edges that the last statement of a block makes, without those that return from a cleanup. -/
def terminalEdges (src : Source) (id : Nat) (block : Block) :
    Except Error (List (FlowNode × EdgeKind)) := do
  let next := if id + 1 < src.blocks.length then [(FlowNode.block (id + 1), EdgeKind.fallthrough)]
    else []
  match src.code[block.last]? with
  | none => return next
  | some s =>
    if s.op.isConditionalBranch then
      return next ++ [(FlowNode.block (← src.targetBlock s), EdgeKind.branch)]
    else
      match s.op with
      | .jump => return [(.block (← src.targetBlock s), .branch)]
      | .leave =>
        let region ← src.regionLeftBy block.last
        match (src.regions.regions[region]?).bind (·.finallyLabel) with
        | some label => return next ++ [(FlowNode.block (← src.labelBlock label), EdgeKind.leave)]
        | none => return next
      | .throw | .rethrow =>
        match ← src.catchingBlock? (src.regions.stateAt block.last) with
        | some handler => return [(.block handler, .throw)]
        | none => return [(.exit, .throw)]
      | .switch =>
        let targets ← (switchTargets s src.constants).mapM src.labelBlock
        return next ++ targets.map fun t ↦ (FlowNode.block t, EdgeKind.switch)
      | .ret | .endFinally => return []
      | _ => return next

/-- The edge from protected code to its handler, unless the block is that handler itself. The state
of the last statement decides. -/
def exceptionalEdges (src : Source) (id : Nat) (block : Block) :
    Except Error (List (FlowNode × EdgeKind)) := do
  match src.handlerLabel? (src.regions.stateAt block.last) with
  | none => return []
  | some label =>
    let handler ← src.labelBlock label
    return if handler == id then [] else [(.block handler, .exceptional)]

/-- All edges of a block but those that return from a cleanup. -/
def blockEdges (src : Source) (id : Nat) (block : Block) : Except Error (List Edge) := do
  let edges := (← src.terminalEdges id block) ++ (← src.exceptionalEdges id block)
  return edges.map fun (target, kind) ↦ ⟨id, target, kind⟩

/-- The blocks after the leaves that run the cleanup of a region, in order. -/
def continuations (src : Source) (region : RegionId) : List Nat :=
  src.blocks.zipIdx.filterMap fun (block, id) ↦
    let leaves := (src.code[block.last]?).any (·.op == .leave)
    let left := match src.regionLeftBy block.last with
      | .ok r => r == region && ((src.regions.regions[r]?).bind (·.finallyLabel)).isSome
      | .error _ => false
    if leaves && left && id + 1 < src.blocks.length then some (id + 1) else none

/-- The edges from the end of a cleanup: back to the code after each leave that runs it, or out of
the function when it runs only for an exception. -/
def cleanupEdges (src : Source) (id : Nat) (block : Block) : Except Error (List Edge) :=
  if (src.code[block.last]?).any (·.op == .endFinally) then
    match src.regions.stateAt block.last with
    | none => .error (.regionMismatch block.last .endFinallyOutside)
    | some (region, _) =>
      match src.continuations region with
      | [] => .ok [⟨id, .exit, .endFinally⟩]
      | targets => .ok (targets.map fun t ↦ ⟨id, .block t, .endFinally⟩)
  else .ok []

end Source

/-- Keep the first edge between two nodes. -/
def dedup : List Edge → List Edge
  | [] => []
  | e :: rest =>
    e :: (dedup rest).filter fun e' ↦ !(e'.source == e.source && e'.target == e.target)

/-- The flow graph of `code`; `constants` holds its jump tables. -/
def build (code : List Statement) (constants : List Value) : Except Error FlowGraph := do
  let regions ← RegionMap.scan code
  let labels ← LabelTable.build code
  let blocks := Block.split code
  let src : Source := { code, constants, labels, regions, blocks }
  let edges ← blocks.zipIdx.mapM fun (block, id) ↦ src.blockEdges id block
  let cleanups ← blocks.zipIdx.mapM fun (block, id) ↦ src.cleanupEdges id block
  return { blocks, regions, edges := dedup (edges.flatten ++ cleanups.flatten) }

/-- The number of the block that holds a position. -/
def blockOf (g : FlowGraph) (position : Nat) : Nat := Block.indexOf g.blocks position

/-- The region that a block starts in. -/
def regionOf (g : FlowGraph) (block : Block) : RegionState := g.regions.stateAt block.start

/-- The position of a target in the order of targets, where the function's exit comes after all blocks. -/
def rank (g : FlowGraph) : FlowNode → Nat
  | .block t => t
  | .exit => g.blocks.length

/-- Put an edge in its place among edges that are in the order of their targets. -/
def insertEdge (g : FlowGraph) (e : Edge) : List Edge → List Edge
  | [] => [e]
  | next :: rest =>
    if g.rank e.target ≤ g.rank next.target then e :: next :: rest
    else next :: g.insertEdge e rest

/-- The edges out of a block in the order of their targets, the function's exit last. -/
def edgesFrom (g : FlowGraph) (id : Nat) : List Edge :=
  (g.edges.filter (·.source == id)).foldr g.insertEdge []

/-- The blocks that can run after a block, in ascending order. -/
def successors (g : FlowGraph) (id : Nat) : List Nat :=
  (g.edgesFrom id).filterMap fun e ↦ match e.target with
    | .block t => some t
    | .exit => none

/-- The blocks that a block can run after, in ascending order. -/
def predecessors (g : FlowGraph) (id : Nat) : List Nat :=
  (List.range g.blocks.length).filter fun b ↦ (g.successors b).contains id

/-- An exception can leave the function from the block. -/
def exitsFunction (g : FlowGraph) (id : Nat) : Bool :=
  g.edges.any fun e ↦ e.source == id && e.target == .exit

end FlowGraph

end MethodCompiler
