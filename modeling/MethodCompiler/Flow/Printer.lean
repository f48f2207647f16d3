import MethodCompiler.Flow.Graph

/-!
# Text of flow graphs

One line for each block: its positions, the label it starts with, the region it ends in, and its
edges.
-/

namespace MethodCompiler

/-- The name of an edge kind in listings. -/
def EdgeKind.name : EdgeKind → String
  | fallthrough => "Fallthrough"
  | branch => "Branch"
  | leave => "Leave"
  | endFinally => "EndFinally"
  | throw => "Throw"
  | switch => "Switch"
  | exceptional => "Exceptional"

/-- The keyword of a phase. -/
def Phase.keyword : Phase → String
  | inTry => "try"
  | inCatch => "catch"
  | inFinally => "finally"

namespace FlowGraph

/-- The line of a block. -/
def blockLine (g : FlowGraph) (code : List Statement) (id : Nat) (block : Block) : String :=
  let label := ((code[block.start]?).bind Statement.label?).elim "" (" " ++ ·)
  let region := match g.regions.stateAt block.last with
    | some (r, phase) => " region " ++ toString r ++ " " ++ phase.keyword
    | none => ""
  let edges := (g.edgesFrom id).map fun e ↦
    let target := match e.target with
      | .block t => toString t
      | .exit => "exit"
    " " ++ target ++ " (" ++ e.kind.name ++ ")"
  "block " ++ toString id ++ " [" ++ toString block.start ++ "..=" ++ toString block.last ++ "]" ++
    label ++ region ++ " ->" ++ if edges.isEmpty then " none" else ",".intercalate edges

/-- The lines of the blocks of `code`. -/
def lines (g : FlowGraph) (code : List Statement) : List String :=
  g.blocks.zipIdx.map fun (block, id) ↦ g.blockLine code id block

end FlowGraph

end MethodCompiler
