import MethodCompiler.Code.Placement
import MethodCompiler.Frame.Packing
import MethodCompiler.Lowering.Function
import MethodCompiler.Region.Leave

/-!
# Compiled functions

A method passes through four forms: code over virtual registers, the same with explicit region exits,
code over the slots of a frame, and statements in their final places.
-/

namespace MethodCompiler

/-- A function in its final form. -/
structure CompiledFunction where
  index : UInt32
  name : String
  statements : List Statement
  /-- The number of slots of its frame. -/
  registers : Nat
  /-- The number of input slots, with the one of the result. -/
  inputs : UInt32
  constants : List Value
  deriving Repr, Inhabited

namespace LoweredFunction

/-- The function with all region exits explicit. -/
def withLeaves (f : LoweredFunction) : Except Error LoweredFunction :=
  return { f with code := (← insertLeaves f.code).statements }

/-- Give the registers of a function their slots and its statements their places. -/
def finish (f : LoweredFunction) (o : Options) : Except Error CompiledFunction := do
  let g ← FlowGraph.build f.code f.constants
  let packed := packCode f.name f.code g o.maxRegisters
  let packing ← packed.1
  let placed ← place packed.2 f.constants o
  return {
    index := f.index
    name := f.name
    statements := placed.statements
    registers := packing.count
    inputs := f.inputs
    constants := placed.constants }

end LoweredFunction

/-- The code of a method with explicit region exits, and the functions known after it. -/
def lowerFunction (m : Method) (symbols : SymbolTable) (o : Options) (functions : FunctionTable) :
    Except Error LoweredFunction × FunctionTable :=
  let (lowered, functions) := lowerMethod m symbols o functions
  (lowered.bind (·.withLeaves), functions)

/-- Compile a method. -/
def compileMethod (m : Method) (symbols : SymbolTable) (o : Options) (functions : FunctionTable) :
    Except Error CompiledFunction × FunctionTable :=
  let (lowered, functions) := lowerFunction m symbols o functions
  (lowered.bind (·.finish o), functions)

namespace CompiledFunction

/-- The lines of a function. -/
def lines (f : CompiledFunction) : List String :=
  [".function " ++ toString f.index.toNat ++ " " ++ f.name,
    ".registers " ++ toString f.registers,
    ".inputs " ++ toString f.inputs.toNat] ++
  (if f.constants.isEmpty then []
    else ".constants" ::
      f.constants.zipIdx.map fun (v, i) ↦ "    c" ++ toString i ++ " " ++ v.text) ++
  ".code" :: (f.statements.map fun s ↦ "    " ++ s.text) ++ [".end"]

end CompiledFunction

end MethodCompiler
