import MethodCompiler.Tree.Expr

/-!
# Statements, methods and units of method trees
-/

namespace MethodCompiler

/-- The label of a switch section. -/
inductive CaseLabel where
  | case (value : Literal)
  | default
  deriving Repr, Inhabited

def CaseLabel.isDefault : CaseLabel → Bool
  | default => true
  | case _ => false

mutual

/-- A statement. Each carries its position. -/
inductive Stmt where
  | block (span : Span) (body : Body)
  /-- A local variable, or a constant, which has no place at run time. -/
  | declare (span : Span) (name : String) (ty : Ty) (init : Option Expr) (isConst : Bool)
  | eval (span : Span) (expr : Expr)
  | ifElse (span : Span) (cond : Expr) (thenBranch : Stmt) (elseBranch : Option Stmt)
  | whileLoop (span : Span) (cond : Expr) (body : Stmt)
  | doWhile (span : Span) (body : Stmt) (cond : Expr)
  | forLoop (span : Span) (init : List Stmt) (cond : Option Expr) (step : List Expr) (body : Stmt)
  | foreach (span : Span) (var : String) (varTy : Ty) (collection : Expr) (body : Stmt)
  | switch (span : Span) (subject : Expr) (sections : List SwitchSection)
  | breakOut (span : Span)
  | continueLoop (span : Span)
  | ret (span : Span) (value : Option Expr)
  /-- Throw a value, or throw the caught one again. -/
  | throw (span : Span) (value : Option Expr)
  | tryCatch (span : Span) (body : Body) (catches : List CatchClause) (cleanup : Option Body)
  | empty (span : Span)
  /-- A construct for which the machine has no code. -/
  | unsupported (span : Span) (construct : String)

/-- A sequence of statements with a scope of its own. -/
inductive Body where
  | mk (stmts : List Stmt) (span : Span)

/-- Statements that a switch runs for any of some labels. -/
inductive SwitchSection where
  | mk (labels : List CaseLabel) (body : List Stmt)

/-- A handler for exceptions of a type, or for all of them. -/
inductive CatchClause where
  | mk (ty : Option Ty) (var : Option String) (body : Body)

end

deriving instance Repr for Stmt, Body, SwitchSection, CatchClause

instance : Inhabited Body := ⟨.mk [] Span.none⟩

instance : Inhabited Stmt := ⟨.empty Span.none⟩

namespace SwitchSection

def labels : SwitchSection → List CaseLabel
  | mk labels _ => labels

/-- The literals among the labels of a section. -/
def cases (s : SwitchSection) : List Literal :=
  s.labels.filterMap fun
    | .case value => some value
    | .default => none

end SwitchSection

namespace CatchClause

def ty : CatchClause → Option Ty
  | mk ty _ _ => ty

end CatchClause

/-- Control never goes on after the statement. -/
def Stmt.isExplicitExit : Stmt → Bool
  | breakOut _ | continueLoop _ | ret _ _ | throw _ _ => true
  | _ => false

/-- A parameter of a method. -/
structure Param where
  name : String
  ty : Ty
  byRef : Bool := false
  deriving DecidableEq, Repr, Inhabited

/-- A method with its body. -/
structure Method where
  /-- The number of the method in its module. -/
  index : UInt32
  name : String
  /-- The class that the method belongs to. -/
  owner : String := ""
  isStatic : Bool := false
  params : List Param
  returnTy : Ty
  body : Body
  span : Span := Span.none
  deriving Repr, Inhabited

namespace Method

/-- The input slot of a parameter: slot 0 is kept for the result, if there is one. -/
def inputSlot (m : Method) (position : UInt32) : UInt32 :=
  if m.returnTy.isVoid then position else position + 1

/-- The number of input slots. -/
def inputCount (m : Method) : UInt32 := m.inputSlot (UInt32.ofNat m.params.length)

end Method

/-- What a name stands for. -/
inductive SymbolKind where
  | localVar
  | parameter
  | field
  | property
  | method
  | type
  deriving DecidableEq, Repr, Inhabited

/-- A resolved name. -/
structure Symbol where
  kind : SymbolKind
  name : String
  /-- The declared type; for a method that of its result. -/
  ty : Ty
  isStatic : Bool := false
  /-- The position of a parameter, or the number of a field, property or method. -/
  index : UInt32 := 0
  isVirtual : Bool := false
  /-- The source does not declare the member. -/
  implicit : Bool := false
  deriving DecidableEq, Repr, Inhabited

/-- What the nodes of a unit stand for, and their static types. -/
structure SymbolTable where
  symbols : SortedMap Symbol := .empty
  types : SortedMap Ty := .empty
  deriving Inhabited

/-- A compilation unit. -/
structure SourceUnit where
  /-- The name of the source file. -/
  file : String := ""
  /-- The source text, if it is known. -/
  source : Option String := none
  methods : List Method
  symbols : SymbolTable := {}
  deriving Inhabited

end MethodCompiler
