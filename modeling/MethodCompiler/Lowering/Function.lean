import MethodCompiler.Code.Printer
import MethodCompiler.Lowering.Body

/-!
# Functions over virtual registers

The code of a method before its registers have slots and its labels have places.
-/

namespace MethodCompiler

/-- A method as code over virtual registers. -/
structure LoweredFunction where
  index : UInt32
  name : String
  code : List Statement
  constants : List Value
  /-- The number of input slots. -/
  inputs : UInt32
  /-- The number of virtual registers. -/
  registers : Nat
  /-- The registers of locals with their names. -/
  registerNames : List (Nat × String)
  deriving Repr, Inhabited

namespace Lowering

/-- Emit the code of a method. Where control can run off its end, it returns. -/
def lowerMethodBody {m : Type → Type} [Monad m] [MonadLiftT Lower m] [MonadScope m] (ctx : Context) :
    m Unit := do
  lowerBody ctx {} ctx.method.body
  ifReachable (emit .ret [])

/-- The function that a method has become. -/
def State.toFunction (st : State) (m : Method) : LoweredFunction where
  index := m.index
  name := m.name
  code := st.code.toList
  constants := st.constants
  inputs := m.inputCount
  registers := st.nextRegister
  registerNames := st.registerNames

/-- The function that the method of a context becomes, and the functions known after it. -/
def lowerIn (ctx : Context) (functions : FunctionTable) : Except Error LoweredFunction × FunctionTable :=
  match (lowerMethodBody ctx : Lower Unit) { functions } with
  | .ok _ st => (.ok (st.toFunction ctx.method), st.functions)
  | .error e st => (.error e, st.functions)

end Lowering

/-- The code of a method, and the functions known after it. Also a method that cannot be compiled
leaves the functions that its calls declared. -/
def lowerMethod (m : Method) (symbols : SymbolTable) (o : Options) (functions : FunctionTable) :
    Except Error LoweredFunction × FunctionTable :=
  Lowering.lowerIn { method := m, symbols, comments := o.comments } functions

namespace LoweredFunction

/-- The lines of a function over virtual registers. -/
def lines (f : LoweredFunction) : List String :=
  [".function " ++ toString f.index.toNat ++ " " ++ f.name ++ "  ; " ++ toString f.registers ++
      " virtual registers"] ++
    (f.constants.zipIdx.map fun (v, i) ↦ "    c" ++ toString i ++ " " ++ v.text) ++
    listing f.code ++ [".end"]

end LoweredFunction

end MethodCompiler
