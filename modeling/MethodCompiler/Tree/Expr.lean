import MethodCompiler.SortedMap
import MethodCompiler.Span
import MethodCompiler.Ty

/-!
# Expressions of method trees

Every expression carries a node: the number under which the symbol table knows it, and its position.
-/

namespace MethodCompiler

/-- The number of a node of a method tree. -/
abbrev NodeId := UInt32

/-- What identifies an expression. -/
structure Node where
  id : NodeId
  span : Span
  deriving DecidableEq, Repr, Inhabited

/-- A literal. The static type of its expression decides the width of a number. -/
inductive Literal where
  | bool (b : Bool)
  | char (c : Char)
  | int (n : Int64)
  | uint (n : UInt64)
  | float (x : Float)
  | string (s : String)
  | null
  deriving Repr, Inhabited

inductive UnaryOp where
  | neg
  | plus
  | not
  | bitNot
  deriving DecidableEq, Repr, Inhabited

inductive BinaryOp where
  | add
  | sub
  | mul
  | div
  | mod
  | bitAnd
  | bitOr
  | bitXor
  | shl
  | shr
  | eq
  | ne
  | lt
  | le
  | gt
  | ge
  deriving DecidableEq, Repr, Inhabited

/-- The comparisons, whose result is a truth value. -/
def BinaryOp.isRelational : BinaryOp → Bool
  | eq | ne | lt | le | gt | ge => true
  | _ => false

inductive LogicalOp where
  | and
  | or
  deriving DecidableEq, Repr, Inhabited

/-- The constructor that a `new` expression runs. -/
structure CtorRef where
  index : UInt32
  /-- The source declares no such constructor. -/
  implicit : Bool
  deriving DecidableEq, Repr, Inhabited

/-- An expression. -/
inductive Expr where
  | literal (node : Node) (value : Literal)
  /-- An identifier; the symbol table knows what it names. -/
  | name (node : Node) (name : String)
  | this (node : Node)
  | unary (node : Node) (op : UnaryOp) (operand : Expr)
  | binary (node : Node) (op : BinaryOp) (lhs rhs : Expr)
  | logical (node : Node) (op : LogicalOp) (lhs rhs : Expr)
  /-- An assignment, or one that combines the target with the value. -/
  | assign (node : Node) (target : Expr) (op : Option BinaryOp) (value : Expr)
  /-- A step up or down by one; the result is the new value if `first` is set, else the old one. -/
  | incDec (node : Node) (target : Expr) (increment first : Bool)
  | conditional (node : Node) (cond thenExpr elseExpr : Expr)
  | member (node : Node) (object : Expr) (name : String)
  | index (node : Node) (object key : Expr)
  | call (node : Node) (callee : Expr) (args : List Expr)
  | new (node : Node) (ty : Ty) (ctor : Option CtorRef) (args : List Expr)
  | newArray (node : Node) (elem : Ty) (len : Expr)
  | arrayLiteral (node : Node) (elem : Ty) (items : List Expr)
  | tableLiteral (node : Node) (key value : Ty) (entries : List (Expr × Expr))
  | cast (node : Node) (ty : Ty) (expr : Expr)
  | is (node : Node) (expr : Expr) (ty : Ty)
  | as (node : Node) (expr : Expr) (ty : Ty)
  | typeOf (node : Node) (ty : Ty)
  /-- A construct for which the machine has no code. -/
  | unsupported (node : Node) (construct : String)
  deriving Repr, Inhabited

namespace Expr

def node : Expr → Node
  | literal n _ | name n _ | this n | unary n _ _ | binary n _ _ _ | logical n _ _ _
  | assign n _ _ _ | incDec n _ _ _ | conditional n _ _ _ | member n _ _ | index n _ _
  | call n _ _ | new n _ _ _ | newArray n _ _ | arrayLiteral n _ _ | tableLiteral n _ _ _
  | cast n _ _ | is n _ _ | as n _ _ | typeOf n _ | unsupported n _ => n

def id (e : Expr) : NodeId := e.node.id

def span (e : Expr) : Span := e.node.span

/-- The literal that an expression is. -/
def literal? : Expr → Option Literal
  | literal _ value => some value
  | _ => none

mutual

/-- Some subexpression, or the expression itself, satisfies `p`. -/
def any (p : Expr → Bool) : Expr → Bool
  | e@(literal _ _) | e@(name _ _) | e@(this _) | e@(typeOf _ _) | e@(unsupported _ _) => p e
  | e@(unary _ _ a) | e@(incDec _ a _ _) | e@(member _ a _) | e@(newArray _ _ a) | e@(cast _ _ a)
  | e@(is _ a _) | e@(as _ a _) => p e || a.any p
  | e@(binary _ _ a b) | e@(logical _ _ a b) | e@(assign _ a _ b) | e@(index _ a b) =>
    p e || a.any p || b.any p
  | e@(conditional _ a b c) => p e || a.any p || b.any p || c.any p
  | e@(call _ f args) => p e || f.any p || anyOf p args
  | e@(new _ _ _ args) => p e || anyOf p args
  | e@(arrayLiteral _ _ items) => p e || anyOf p items
  | e@(tableLiteral _ _ _ entries) => p e || anyOfEntries p entries

def anyOf (p : Expr → Bool) : List Expr → Bool
  | [] => false
  | e :: rest => e.any p || anyOf p rest

def anyOfEntries (p : Expr → Bool) : List (Expr × Expr) → Bool
  | [] => false
  | (k, v) :: rest => k.any p || v.any p || anyOfEntries p rest

end

/-- The expression itself writes a variable. -/
def isWrite : Expr → Bool
  | assign _ _ _ _ | incDec _ _ _ _ => true
  | _ => false

/-- The expression itself writes a variable, or runs code that may write a field. -/
def isWriteOrCall : Expr → Bool
  | assign _ _ _ _ | incDec _ _ _ _ | call _ _ _ | new _ _ _ _ => true
  | _ => false

end Expr

end MethodCompiler
