import MethodCompiler.Module.Link

/-!
# Compiled units

The methods of a unit are compiled one after the other and share one table of functions. The first
method that fails ends the compilation.
-/

namespace MethodCompiler

/-- The methods of a unit in the order of their numbers. -/
def SourceUnit.methodsByIndex (u : SourceUnit) : List Method :=
  u.methods.mergeSort fun a b ↦ a.index ≤ b.index

/-- The functions that a unit has bodies for. -/
def SourceUnit.functionTable (u : SourceUnit) : FunctionTable :=
  u.methodsByIndex.foldl (fun t m ↦ t.declare m.index { name := m.name, implicit := false }) .empty

/-- The static method with the given name and the lowest number. -/
def SourceUnit.entryPoint? (u : SourceUnit) (name : String) : Option UInt32 :=
  ((u.methods.filter fun m ↦ m.isStatic && m.name == name).map (·.index)).min?

/-- Compile methods one after the other, and return the functions known in the end. -/
def compileMethods (symbols : SymbolTable) (o : Options) (functions : FunctionTable) :
    List Method → Except FunctionError (List CompiledFunction × FunctionTable)
  | [] => .ok ([], functions)
  | m :: rest => do
    let (compiled, functions) := compileMethod m symbols o functions
    let f ← compiled.mapError fun cause ↦ { function := m.name, cause }
    let (fs, functions) ← compileMethods symbols o functions rest
    return (f :: fs, functions)

/-- A compiled and linked unit. -/
structure CompiledModule where
  /-- The functions with bodies, in the order of their numbers. -/
  functions : List CompiledFunction
  /-- Every known function. -/
  declarations : FunctionTable
  types : TypeNames
  /-- The function that the module starts with. -/
  entryPoint : Option UInt32
  deriving Inhabited

/-- Compile and link a unit. -/
def SourceUnit.compile (u : SourceUnit) (o : Options) : Except FunctionError CompiledModule := do
  let (functions, declarations) ← compileMethods u.symbols o u.functionTable u.methods
  let (functions, types) := link (functions.mergeSort fun a b ↦ a.index ≤ b.index)
  return { functions, declarations, types, entryPoint := u.entryPoint? o.entryPoint }

namespace CompiledModule

/-- The first function with a name. -/
def function? (m : CompiledModule) (name : String) : Option CompiledFunction :=
  m.functions.find? (·.name == name)

/-- The lines of a module: its tables, then its functions, each after an empty line. -/
def lines (m : CompiledModule) : List String :=
  (m.entryPoint.elim [] fun i ↦ [".entry " ++ toString i.toNat]) ++
  (m.types.zipIdx.map fun (name, i) ↦ ".type " ++ toString i ++ " " ++ name) ++
  (m.declarations.entries.filterMap fun (i, f) ↦
    if f.implicit then some (".import " ++ toString i.toNat ++ " " ++ f.name) else none) ++
  m.functions.flatMap fun f ↦ "" :: f.lines

end CompiledModule

end MethodCompiler
