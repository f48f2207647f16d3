import MethodCompiler.Module.FunctionTable
import MethodCompiler.Tree.Stmt

/-!
# What is asked of a tree

The code of a method declares the functions that its calls mention and the source does not declare;
`callees` lists them. What can be said of the regions in the code depends on the protected statements in
the tree: whether each of them has a handler or a cleanup, and whether a cleanup can be left by a jump.
-/

namespace MethodCompiler

/-! ### Functions that only calls mention -/

/-- The function that a call of a named method mentions, if the source does not declare it. -/
def SymbolTable.implicitMethod (symbols : SymbolTable) (callee : NodeId) : List (UInt32 × String) :=
  match (symbols.symbols.get? callee).filter (·.kind == .method) with
  | some sym => if sym.implicit then [(sym.index, sym.name)] else []
  | none => []

/-- The constructor that a `new` expression mentions, if the source does not declare it. -/
def CtorRef.implicitConstructor (ctor : Option CtorRef) (ty : Ty) : List (UInt32 × String) :=
  match ctor with
  | some ctor => if ctor.implicit then [(ctor.index, ty.text ++ "::.ctor")] else []
  | none => []

namespace Expr

mutual

/-- The functions that an expression mentions and the source does not declare, with the names that it
gives them. -/
def callees (symbols : SymbolTable) : Expr → List (UInt32 × String)
  | literal _ _ | name _ _ | this _ | typeOf _ _ | unsupported _ _ => []
  | unary _ _ a | incDec _ a _ _ | member _ a _ | newArray _ _ a | cast _ _ a | is _ a _
  | as _ a _ => a.callees symbols
  | binary _ _ a b | logical _ _ a b | assign _ a _ b | index _ a b =>
    a.callees symbols ++ b.callees symbols
  | conditional _ a b c => a.callees symbols ++ b.callees symbols ++ c.callees symbols
  | call _ f args =>
    symbols.implicitMethod f.id ++ f.callees symbols ++ calleesOf symbols args
  | new _ ty ctor args => CtorRef.implicitConstructor ctor ty ++ calleesOf symbols args
  | arrayLiteral _ _ items => calleesOf symbols items
  | tableLiteral _ _ _ entries => calleesOfEntries symbols entries

def calleesOf (symbols : SymbolTable) : List Expr → List (UInt32 × String)
  | [] => []
  | e :: rest => e.callees symbols ++ calleesOf symbols rest

def calleesOfEntries (symbols : SymbolTable) : List (Expr × Expr) → List (UInt32 × String)
  | [] => []
  | (k, v) :: rest => k.callees symbols ++ v.callees symbols ++ calleesOfEntries symbols rest

end

end Expr

mutual

/-- The functions that a statement mentions and the source does not declare. -/
def Stmt.callees (symbols : SymbolTable) : Stmt → List (UInt32 × String)
  | .block _ body => body.callees symbols
  | .declare _ _ _ init _ => init.elim [] (·.callees symbols)
  | .eval _ e => e.callees symbols
  | .ifElse _ cond thenBranch none => cond.callees symbols ++ thenBranch.callees symbols
  | .ifElse _ cond thenBranch (some elseBranch) =>
    cond.callees symbols ++ thenBranch.callees symbols ++ elseBranch.callees symbols
  | .whileLoop _ cond body => cond.callees symbols ++ body.callees symbols
  | .doWhile _ body cond => body.callees symbols ++ cond.callees symbols
  | .forLoop _ init cond step body =>
    Stmt.calleesOf symbols init ++ cond.elim [] (·.callees symbols) ++ Expr.calleesOf symbols step ++
      body.callees symbols
  | .foreach _ _ _ collection body => collection.callees symbols ++ body.callees symbols
  | .switch _ subject sections =>
    subject.callees symbols ++ SwitchSection.calleesOf symbols sections
  | .ret _ value => value.elim [] (·.callees symbols)
  | .throw _ value => value.elim [] (·.callees symbols)
  | .tryCatch _ body catches none =>
    body.callees symbols ++ CatchClause.calleesOf symbols catches
  | .tryCatch _ body catches (some cleanup) =>
    body.callees symbols ++ CatchClause.calleesOf symbols catches ++ cleanup.callees symbols
  | .breakOut _ | .continueLoop _ | .empty _ | .unsupported _ _ => []

def Stmt.calleesOf (symbols : SymbolTable) : List Stmt → List (UInt32 × String)
  | [] => []
  | s :: rest => s.callees symbols ++ Stmt.calleesOf symbols rest

def Body.callees (symbols : SymbolTable) : Body → List (UInt32 × String)
  | .mk stmts _ => Stmt.calleesOf symbols stmts

def SwitchSection.calleesOf (symbols : SymbolTable) : List SwitchSection → List (UInt32 × String)
  | [] => []
  | .mk _ body :: rest => Stmt.calleesOf symbols body ++ SwitchSection.calleesOf symbols rest

def CatchClause.calleesOf (symbols : SymbolTable) : List CatchClause → List (UInt32 × String)
  | [] => []
  | .mk _ _ (.mk stmts _) :: rest =>
    Stmt.calleesOf symbols stmts ++ CatchClause.calleesOf symbols rest

end

/-- Declare functions that only calls mention. -/
def FunctionTable.declareImplicit (t : FunctionTable) (calls : List (UInt32 × String)) :
    FunctionTable :=
  calls.foldl (fun t c ↦ t.declare c.1 { name := c.2, implicit := true }) t

/-- Functions can be declared in two parts. -/
theorem FunctionTable.declareImplicit_append (t : FunctionTable) (a b : List (UInt32 × String)) :
    t.declareImplicit (a ++ b) = (t.declareImplicit a).declareImplicit b :=
  List.foldl_append

/-! ### Protected statements -/

mutual

/-- Every protected statement has a handler or a cleanup, and unless cleanups can be left, no cleanup is
left by a `break` or a `continue`. The flags `breaks` and `continues` say whether one that belongs to a
construct around the statement is allowed. -/
def Stmt.isOrderly (leaving breaks continues : Bool) : Stmt → Bool
  | .block _ body => body.isOrderly leaving breaks continues
  | .ifElse _ _ thenBranch none => thenBranch.isOrderly leaving breaks continues
  | .ifElse _ _ thenBranch (some elseBranch) =>
    thenBranch.isOrderly leaving breaks continues && elseBranch.isOrderly leaving breaks continues
  | .whileLoop _ _ body | .doWhile _ body _ | .foreach _ _ _ _ body => body.isOrderly leaving true true
  | .forLoop _ init _ _ body =>
    Stmt.areOrderly leaving breaks continues init && body.isOrderly leaving true true
  | .switch _ _ sections => SwitchSection.areOrderly leaving continues sections
  | .breakOut _ => breaks
  | .continueLoop _ => continues
  | .tryCatch _ body catches none =>
    !catches.isEmpty && (body.isOrderly leaving breaks continues &&
      CatchClause.areOrderly leaving breaks continues catches)
  | .tryCatch _ body catches (some cleanup) =>
    cleanup.isOrderly leaving leaving leaving && (body.isOrderly leaving breaks continues &&
      CatchClause.areOrderly leaving breaks continues catches)
  | .declare _ _ _ _ _ | .eval _ _ | .ret _ _ | .throw _ _ | .empty _ | .unsupported _ _ => true

/-- Each of the statements is orderly. -/
def Stmt.areOrderly (leaving breaks continues : Bool) : List Stmt → Bool
  | [] => true
  | s :: rest =>
    s.isOrderly leaving breaks continues && Stmt.areOrderly leaving breaks continues rest

/-- The statements of a body are orderly. -/
def Body.isOrderly (leaving breaks continues : Bool) : Body → Bool
  | .mk stmts _ => Stmt.areOrderly leaving breaks continues stmts

/-- The statements of each section are orderly. A `break` leaves the switch. -/
def SwitchSection.areOrderly (leaving continues : Bool) : List SwitchSection → Bool
  | [] => true
  | .mk _ body :: rest =>
    Stmt.areOrderly leaving true continues body && SwitchSection.areOrderly leaving continues rest

/-- The statements of each clause are orderly. -/
def CatchClause.areOrderly (leaving breaks continues : Bool) : List CatchClause → Bool
  | [] => true
  | .mk _ _ body :: rest =>
    body.isOrderly leaving breaks continues && CatchClause.areOrderly leaving breaks continues rest

end

/-- Every protected statement has a handler or a cleanup, and no cleanup is left by a `break` or a
`continue`. The flags say whether one that belongs to a construct around the body is allowed. -/
def Body.isTidy (breaks continues : Bool) (body : Body) : Bool := body.isOrderly false breaks continues

/-- Every protected statement has a handler or a cleanup. -/
def Body.isGuarded (body : Body) : Bool := body.isOrderly true true true

end MethodCompiler
