import MethodCompiler.Tree.Stmt

/-!
# Building trees

Expressions are built together with their symbol table: each new node takes the next number, and its
type and symbol are recorded under it. Nodes built here have no position.
-/

namespace MethodCompiler

/-- The next node number and what is recorded of the nodes built so far. -/
structure TreeBuilder where
  nextId : NodeId := 0
  table : SymbolTable := {}
  deriving Inhabited

/-- A step of building trees. -/
abbrev Build := StateM TreeBuilder

namespace Build

/-- A new node with a type. -/
def expr (make : Node → Expr) (ty : Ty) : Build Expr :=
  modifyGet fun b ↦
    (make { id := b.nextId, span := Span.none },
      { nextId := b.nextId + 1
        table := { b.table with types := b.table.types.insert b.nextId ty } })

/-- A new node that stands for a symbol. -/
def resolved (make : Node → Expr) (symbol : Symbol) : Build Expr := do
  let e ← expr make symbol.ty
  modify fun b ↦ { b with
    table := { b.table with symbols := b.table.symbols.insert e.id symbol } }
  return e

/-- The type recorded for an expression. -/
def typeOf? (e : Expr) : Build (Option Ty) := return (← get).table.types.get? e.id

def literal (value : Literal) (ty : Ty) : Build Expr := expr (.literal · value) ty

def int (n : Int64) : Build Expr := literal (.int n) .i32

def bool (b : Bool) : Build Expr := literal (.bool b) .bool

def string (s : String) : Build Expr := literal (.string s) .string

def null : Build Expr := literal .null .null

/-- A name that stands for a symbol. -/
def name (symbol : Symbol) : Build Expr := resolved (.name · symbol.name) symbol

def localVar (name : String) (ty : Ty) : Build Expr :=
  Build.name { kind := .localVar, name, ty }

def param (name : String) (position : UInt32) (ty : Ty) : Build Expr :=
  Build.name { kind := .parameter, name, ty, index := position }

/-- A field of `this`, named without it. -/
def field (name : String) (index : UInt32) (ty : Ty) : Build Expr :=
  Build.name { kind := .field, name, ty, index }

def staticField (name : String) (index : UInt32) (ty : Ty) : Build Expr :=
  Build.name { kind := .field, name, ty, index, isStatic := true }

def this (owner : String) : Build Expr := expr .this (.named owner)

def member (object : Expr) (name : String) (symbol : Symbol) : Build Expr :=
  resolved (.member · object name) symbol

def unary (op : UnaryOp) (operand : Expr) (ty : Ty) : Build Expr := expr (.unary · op operand) ty

def binary (op : BinaryOp) (lhs rhs : Expr) (ty : Ty) : Build Expr := expr (.binary · op lhs rhs) ty

/-- A comparison is a truth value. -/
def compare (op : BinaryOp) (lhs rhs : Expr) : Build Expr := binary op lhs rhs .bool

def logical (op : LogicalOp) (lhs rhs : Expr) : Build Expr := expr (.logical · op lhs rhs) .bool

def not (operand : Expr) : Build Expr := unary .not operand .bool

/-- An assignment has the type of its target. -/
def assign (target : Expr) (op : Option BinaryOp) (value : Expr) : Build Expr := do
  expr (.assign · target op value) ((← typeOf? target).getD .object)

/-- A step up by one has the type of its target. -/
def increment (target : Expr) (first : Bool) : Build Expr := do
  expr (.incDec · target true first) ((← typeOf? target).getD .i32)

def conditional (cond thenExpr elseExpr : Expr) (ty : Ty) : Build Expr :=
  expr (.conditional · cond thenExpr elseExpr) ty

def call (callee : Expr) (args : List Expr) (ty : Ty) : Build Expr := expr (.call · callee args) ty

/-- Call a static method by its name. -/
def callStatic (name : String) (index : UInt32) (ty : Ty) (args : List Expr) : Build Expr := do
  let callee ← Build.name { kind := .method, name, ty, index, isStatic := true }
  call callee args ty

/-- Call a virtual method of an object. -/
def callMethod (object : Expr) (name : String) (index : UInt32) (ty : Ty) (args : List Expr) :
    Build Expr := do
  let callee ← member object name { kind := .method, name, ty, index, isVirtual := true }
  call callee args ty

/-- Make an object of a class. -/
def newObject (owner : String) (ctor : Option CtorRef) (args : List Expr) : Build Expr :=
  expr (.new · (.named owner) ctor args) (.named owner)

end Build

end MethodCompiler
