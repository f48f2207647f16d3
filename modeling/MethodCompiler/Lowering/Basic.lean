import MethodCompiler.Code.Statement
import MethodCompiler.Error
import MethodCompiler.Module.FunctionTable
import MethodCompiler.Options
import MethodCompiler.Tree.Stmt

/-!
# Emitting code for a method

Code for a method is a list of statements over registers that are numbered without a bound, in the
order in which they are needed. Branches name labels, and labels are numbered by the constructs that
they belong to. Names of locals stand for registers or constants while their scope is open.
-/

namespace MethodCompiler

namespace Lowering

/-- What the code of a method depends on besides its tree. -/
structure Context where
  method : Method
  symbols : SymbolTable
  /-- Annotate statements with the names of the tree. -/
  comments : Bool
  /-- Have arrays and tables in the statements that use them, and not in the pool. -/
  inPlace : Bool := false

namespace Context

/-- What the name at a node stands for. -/
def symbol? (ctx : Context) (id : NodeId) : Option Symbol := ctx.symbols.symbols.get? id

/-- The static type of a node: the one that is recorded for it, or that of its symbol, or the type of
all objects. -/
def typeOf (ctx : Context) (id : NodeId) : Ty :=
  (ctx.symbols.types.get? id).getD (((ctx.symbol? id).map (·.ty)).getD .object)

/-- The type of `this`. -/
def thisTy (ctx : Context) : Ty := .named ctx.method.owner

end Context

/-- What a local name stands for. -/
inductive Binding where
  | register (r : Nat) (ty : Ty)
  /-- A constant; it takes no register. -/
  | constant (value : Value)
  deriving Repr, Inhabited

/-- The names declared in a scope, in the order of their declarations. -/
abbrev Scope := List (String × Binding)

/-- The code emitted so far, and what is in use. -/
structure State where
  code : Array Statement := #[]
  constants : List Value := []
  /-- The first register that is not in use. -/
  nextRegister : Nat := 0
  /-- The registers of locals with their names, in ascending order. -/
  registerNames : List (Nat × String) := []
  /-- The open scopes, innermost first. -/
  scopes : List Scope := []
  /-- The number of the next construct that needs labels. -/
  nextConstruct : Nat := 0
  functions : FunctionTable := .empty
  deriving Inhabited

end Lowering

/-- A step of emitting code. A step that fails keeps the functions that it declared. -/
abbrev Lower := EStateM Error Lowering.State

namespace Lowering

/-- Go on with a result, or fail with its error. -/
def orFail {α : Type} : Except Error α → Lower α
  | .ok a => pure a
  | .error e => throw e

/-- Give up. -/
def fail {α : Type} (e : Error) : Lower α := throw e

/-! ## Statements -/

def emitStatement (s : Statement) : Lower Unit :=
  modify fun st ↦ { st with code := st.code.push s }

def emit (op : Opcode) (operands : List Operand) : Lower Unit := emitStatement (.of op operands)

def emitLabel (name : String) : Lower Unit := emitStatement (.label name)

def emitJump (target : String) : Lower Unit := emitStatement (.jump target)

/-- Put a comment on the last statement, if comments are wanted. -/
def annotate (ctx : Context) (comment : String) : Lower Unit :=
  if ctx.comments then
    modify fun st ↦ { st with
      code := st.code.modify (st.code.size - 1) fun s ↦ { s with comment := some comment } }
  else pure ()

/-- Control can reach the next statement: the last one was no unconditional exit. -/
def reachable : Lower Bool :=
  return !((← get).code.back?.any (·.op.isUnconditionalExit))

/-- Run a step where control can be. -/
def ifReachable (act : Lower Unit) : Lower Unit := do
  if ← reachable then act

/-- Jump to a label from where control can be. -/
def emitJumpIfReachable (target : String) : Lower Unit := ifReachable (emitJump target)

/-! ## Numbers -/

/-- The number of a new construct. -/
def newConstruct : Lower Nat :=
  modifyGet fun st ↦ (st.nextConstruct, { st with nextConstruct := st.nextConstruct + 1 })

/-- The label of a part of a construct. -/
def labelName (kind : String) (n : Nat) (part : String) : String :=
  kind ++ toString n ++ "_" ++ part

/-- The number of a new register. -/
def newRegisterNumber : Lower Nat :=
  modifyGet fun st ↦ (st.nextRegister, { st with nextRegister := st.nextRegister + 1 })

/-- A new register of a type. -/
def newRegister (ty : Ty) : Lower Operand := return .register (← newRegisterNumber) ty

/-- The place that the caller wants a value in, or a new register. -/
def destination (into : Option Operand) (ty : Ty) : Lower Operand :=
  match into with
  | some dst => pure dst
  | none => newRegister ty

/-- The place of a constant in the pool. Equal constants share a place. -/
def addConstant (value : Value) : Lower Nat :=
  modifyGet fun st ↦
    match st.constants.findIdx? (· == value) with
    | some i => (i, st)
    | none => (st.constants.length, { st with constants := st.constants ++ [value] })

/-- Load an array or a table, from the pool unless it is wanted in place. -/
def loadConstant (ctx : Context) (value : Value) : Lower Operand := do
  if ctx.inPlace then return .immediate value
  else return .constant (← addConstant value)

def declareFunction (index : UInt32) (f : FunctionDecl) : Lower Unit :=
  modify fun st ↦ { st with functions := st.functions.declare index f }

/-! ## Copies -/

/-- The first operand of `reref` for a destination: a register is named by its index. -/
def rebindTarget : Operand → Operand
  | .register r _ => .immediate (.registerIndex r)
  | operand => operand

/-- Store a value: references are rebound, other values are copied. -/
def copyInto (dst src : Operand) (ty : Ty) : Lower Unit :=
  if dst == src then pure ()
  else if ty.isReference then emit .reref [rebindTarget dst, src]
  else emit .move [dst, src]

/-- Hand a value to the caller, in the place that it asked for. -/
def deliver (value : Operand) (into : Option Operand) (ty : Ty) : Lower Operand :=
  match into with
  | some dst => do
    copyInto dst value ty
    return dst
  | none => pure value

/-- Some of the expressions can write what an operand reads in place. Calls can write fields; a
register without a name holds an intermediate value and is written by nothing else. -/
def clobbered (value : Operand) (later : List Expr) : Lower Bool := do
  match value with
  | .field _ _ => return later.any (·.any Expr.isWriteOrCall)
  | .input _ _ => return later.any (·.any Expr.isWrite)
  | .register r _ =>
    return (← get).registerNames.any (·.1 == r) && later.any (·.any Expr.isWrite)
  | _ => return false

/-- Keep a value from what runs before it is used: operands are evaluated from left to right, but
read only by the statement that uses them. -/
def pin (value : Operand) (later : List Expr) : Lower Operand := do
  if ← clobbered value later then
    let ty := value.ty?.getD .object
    let copy ← newRegister ty
    copyInto copy value ty
    return copy
  else return value

/-! ## Scopes -/

/-- Clear the registers of some bindings. -/
def clearBindings (ctx : Context) : Scope → Lower Unit
  | [] => pure ()
  | (name, .register r ty) :: rest => do
    emit .nullify [.register r ty, .register r ty]
    annotate ctx name
    clearBindings ctx rest
  | (_, .constant _) :: rest => clearBindings ctx rest

def pushScope : Lower Unit := modify fun st ↦ { st with scopes := [] :: st.scopes }

/-- Close the innermost scope, and clear its registers where control can be. -/
def popScope (ctx : Context) : Lower Unit := do
  match (← get).scopes with
  | [] => pure ()
  | scope :: outer =>
    modify fun st ↦ { st with scopes := outer }
    if ← reachable then clearBindings ctx scope

/-- Run a step in a scope of its own. -/
def inScope (ctx : Context) (act : Lower Unit) : Lower Unit := do
  pushScope
  act
  popScope ctx

/-- A way to run steps that can have scopes of their own. -/
class MonadScope (m : Type → Type) where
  withScope : Context → m Unit → m Unit

export MonadScope (withScope)

instance : MonadScope Lower := ⟨inScope⟩

/-- Clear the registers of all scopes but the `depth` outermost, which stay open. -/
def clearScopesFrom (ctx : Context) (depth : Nat) : Lower Unit := do
  let scopes := (← get).scopes
  clearBindings ctx (scopes.take (scopes.length - depth)).flatten

/-- Declare a name in the innermost scope. -/
def bindName (name : String) (b : Binding) : Lower Unit :=
  modify fun st ↦ { st with
    scopes := match st.scopes with
      | [] => [[(name, b)]]
      | scope :: outer => (scope ++ [(name, b)]) :: outer }

/-- Give a register to a local name. -/
def bindRegister (name : String) (r : Nat) (ty : Ty) : Lower Unit := do
  modify fun st ↦ { st with registerNames := st.registerNames ++ [(r, name)] }
  bindName name (.register r ty)

/-- What a local name stands for: its latest declaration in the innermost scope that has one. -/
def lookup? (name : String) : Lower (Option Binding) :=
  return (← get).scopes.findSome? fun scope ↦ (scope.reverse.find? (·.1 == name)).map (·.2)

section

variable {m : Type → Type} [Monad m] [MonadLiftT Lower m]

/-- Declare a local with a new register. A step that puts the first value there does not know the name
yet. -/
def declareLocal (name : String) (ty : Ty) (init : Nat → m Unit := fun _ ↦ pure ()) : m Operand := do
  let r ← newRegisterNumber
  init r
  bindRegister name r ty
  return .register r ty

end

end Lowering

end MethodCompiler
