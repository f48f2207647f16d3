import MethodCompiler.Lowering.Expression

/-!
# Code of statements

Each construct with labels takes a number of its own, and its labels are named by the construct, the
number and the part that they start. A declaration in a branch or a loop body without braces belongs
to the scope around it.
-/

namespace MethodCompiler.Lowering

/-- A construct that `break`, and `continue` if it is a loop, can leave. -/
structure JumpTarget where
  breakLabel : String
  continueLabel : Option String
  /-- The number of scopes that stay open. -/
  depth : Nat
  deriving DecidableEq, Repr, Inhabited

/-- What surrounds a statement. -/
structure Surroundings where
  /-- The constructs that can be left, innermost first. -/
  targets : List JumpTarget := []
  /-- The statement stands in a catch clause, whose exception it can throw again. -/
  inCatch : Bool := false
  deriving DecidableEq, Repr, Inhabited

/-- The surroundings inside a construct that can be left, with all open scopes around it. -/
def enter (env : Surroundings) (breakLabel : String) (continueLabel : Option String) :
    Lower Surroundings := do
  let target := { breakLabel, continueLabel, depth := (← get).scopes.length }
  return { env with targets := target :: env.targets }

section

variable {m : Type → Type} [Monad m] [MonadLiftT Lower m]

/-- Run a step inside a construct that can be left. -/
def inside (env : Surroundings) (breakLabel : String) (continueLabel : Option String)
    (act : Surroundings → m Unit) : m Unit := do
  act (← enter env breakLabel continueLabel)

/-- Declare a constant. -/
def lowerConstant (span : Span) (name : String) (ty : Ty) (init : Option Expr) : Lower Unit :=
  match init.bind Expr.literal? with
  | some lit => do bindName name (.constant (← orFail (literalValue lit ty span)))
  | none => fail (.nonLiteralConstant name span)

/-- Compute the initial value of a local. -/
def lowerInitial (ctx : Context) (name : String) (ty : Ty) (r : Nat) : Option Expr → m Unit
  | none => pure ()
  | some e => do
    (discard ((exprCode ctx e).value (some (.register r ty))) : Lower Unit)
    annotate ctx (ty.text ++ " " ++ name)

/-- Declare a local or a constant. -/
def lowerDeclare (ctx : Context) (span : Span) (name : String) (ty : Ty) (init : Option Expr)
    (isConst : Bool) : m Unit := do
  if isConst then lowerConstant span name ty init
  else
    let _ ← declareLocal name ty fun r ↦ lowerInitial ctx name ty r init
    pure ()

/-- Run expressions one after the other. -/
def runAll (ctx : Context) : List Expr → Lower Unit
  | [] => pure ()
  | e :: rest => do
    (exprCode ctx e).run
    runAll ctx rest

/-- Go to a label unless a condition holds, if there is one. -/
def branchUnless (ctx : Context) (target : String) : Option Expr → Lower Unit
  | none => pure ()
  | some cond => (exprCode ctx cond).branch target false

/-- Leave a construct by a jump, and clear the locals of the scopes that are left. -/
def jumpOut (ctx : Context) (label : String) (depth : Nat) : Lower Unit := do
  clearScopesFrom ctx depth
  emitJump label

def lowerBreak (ctx : Context) (env : Surroundings) (span : Span) : Lower Unit :=
  match env.targets.head? with
  | some t => jumpOut ctx t.breakLabel t.depth
  | none => fail (.noEnclosingTarget "break" span)

def lowerContinue (ctx : Context) (env : Surroundings) (span : Span) : Lower Unit :=
  match env.targets.findSome? fun t ↦ t.continueLabel.map (·, t.depth) with
  | some (label, depth) => jumpOut ctx label depth
  | none => fail (.noEnclosingTarget "continue" span)

/-- Put the result into input slot 0. -/
def storeResult (ctx : Context) : Option Expr → Lower Unit
  | none => pure ()
  | some e => do
    let v ← (exprCode ctx e).value none
    emit .reref [.input 0 ctx.method.returnTy, v]

def lowerReturn (ctx : Context) (value : Option Expr) : m Unit := do
  storeResult ctx value
  emit .ret []

def lowerThrow (ctx : Context) (env : Surroundings) (span : Span) : Option Expr → Lower Unit
  | some e => do
    let v ← (exprCode ctx e).value none
    emit .throw [v]
  | none =>
    if env.inCatch then emit .rethrow []
    else fail (.unsupported "rethrow outside of a catch clause" span)

/-! ## Switches -/

/-- The label of a section. -/
def caseLabel (n i : Nat) : String := labelName "switch" n ("case" ++ toString i)

/-- Each case of the sections from number `i` on, with the label of its section. -/
def switchCases (n i : Nat) : List SwitchSection → List (Literal × String)
  | [] => []
  | s :: rest => s.cases.map (·, caseLabel n i) ++ switchCases n (i + 1) rest

/-- Where a switch goes when no case fits. -/
def defaultLabel (n : Nat) (sections : List SwitchSection) : String :=
  match sections.findIdx? (·.labels.any CaseLabel.isDefault) with
  | some i => caseLabel n i
  | none => labelName "switch" n "end"

/-- The jump table of a switch over strings. -/
def jumpTable (span : Span) (entries : List (Value × Value)) :
    List (Literal × String) → Lower (List (Value × Value))
  | [] => return entries
  | (lit, target) :: rest => do
    let key ← orFail (literalValue lit .string span)
    jumpTable span (Value.insertEntry key (.label target) entries) rest

/-- Compare a value with one case after the other. -/
def compareCases (span : Span) (value : Operand) (ty : Ty) : List (Literal × String) → Lower Unit
  | [] => pure ()
  | (lit, target) :: rest => do
    let case ← orFail (literalValue lit ty span)
    emit .jumpEq [value, .immediate case, .label target]
    compareCases span value ty rest

/-- Go to the section of a value: through a jump table for strings, else by comparisons. -/
def dispatch (ctx : Context) (subject : Expr) (cases : List (Literal × String)) : Lower Unit := do
  let value ← (exprCode ctx subject).value none
  let ty := ctx.typeOf subject.id
  if ty.isString then
    let table ← jumpTable subject.span [] cases
    emit .switch [value, ← loadConstant ctx (.table .string .i32 table)]
  else compareCases subject.span value ty cases

/-- Control must not run from one section into the next. -/
def trapFallthrough (body : List Stmt) : Lower Unit :=
  if body.getLast?.any Stmt.isExplicitExit then pure ()
  else emitStatement { op := .trap, operands := [.immediate (.string "illegal fallthrough")],
                       synthetic := true }

/-! ## Protected code -/

/-- The label of a catch clause after the first. -/
def clauseLabel (n j : Nat) : String := labelName "try" n ("clause" ++ toString j)

/-- A label that may be left out. -/
def optionalLabel : Option String → Operand
  | some label => .label label
  | none => .null

/-- A handler that starts at a label, if there is one. -/
def handlerSteps (label : Option String) (handler : m Unit) : m Unit :=
  match label with
  | some l => do
    emitLabel l
    handler
  | none => pure ()

/-- A cleanup that starts at a label, if there is one. -/
def cleanupSteps (label : Option String) (cleanup : m Unit) : m Unit :=
  match label with
  | some l => do
    emitLabel l
    cleanup
    emit .endFinally []
  | none => pure ()

/-- Protected code from its parts. The cleanup runs whenever the code is left. -/
def protectedSteps (catchLabel finallyLabel : Option String) (endLabel : String)
    (body handler cleanup : m Unit) : m Unit := do
  emit .enterTry [optionalLabel catchLabel, optionalLabel finallyLabel, .label endLabel]
  body
  emitJumpIfReachable endLabel
  handlerSteps catchLabel handler
  cleanupSteps finallyLabel cleanup
  emitLabel endLabel

/-- Mark a catch clause; the first one starts where the handler does. -/
def startClause (n j : Nat) : Lower Unit :=
  if 0 < j then emitLabel (clauseLabel n j) else pure ()

/-- Go on to the next clause unless the exception has the type of this one. -/
def testClause (n j : Nat) : Option Ty → Lower Unit
  | none => pure ()
  | some ty => do
    let matched ← newRegister .bool
    emit .is [matched, .exception, .immediate (.type ty.text)]
    emit .jumpFalse [matched, .label (clauseLabel n (j + 1))]

/-- Declare the variable of a clause and put the exception there. -/
def bindException (ty : Option Ty) : Option String → m Unit
  | none => pure ()
  | some var => do
    let r ← declareLocal var (ty.getD .object)
    copyInto r .exception (ty.getD .object)

/-- An exception that no clause takes is thrown again. -/
def rethrowUnmatched (n : Nat) (clauses : List CatchClause) : m Unit := do
  if clauses.getLast?.any (·.ty.isSome) then
    emitLabel (clauseLabel n clauses.length)
    emit .rethrow []

end

/-! ## Statements -/

section

variable {m : Type → Type} [Monad m] [MonadLiftT Lower m] [MonadScope m]

mutual

/-- Emit the code of a statement. -/
def lowerStmt (ctx : Context) (env : Surroundings) : Stmt → m Unit
  | .block _ body => lowerBody ctx env body
  | .declare span name ty init isConst => lowerDeclare ctx span name ty init isConst
  | .eval _ e => (exprCode ctx e).run
  | .ifElse _ cond thenBranch none => do
    let n ← newConstruct
    let endLabel := labelName "if" n "end"
    (exprCode ctx cond).branch endLabel false
    lowerStmt ctx env thenBranch
    emitLabel endLabel
  | .ifElse _ cond thenBranch (some elseBranch) => do
    let n ← newConstruct
    let elseLabel := labelName "if" n "else"
    let endLabel := labelName "if" n "end"
    (exprCode ctx cond).branch elseLabel false
    lowerStmt ctx env thenBranch
    emitJumpIfReachable endLabel
    emitLabel elseLabel
    lowerStmt ctx env elseBranch
    emitLabel endLabel
  | .whileLoop _ cond body => do
    let n ← newConstruct
    let condLabel := labelName "while" n "cond"
    let endLabel := labelName "while" n "end"
    emitLabel condLabel
    (exprCode ctx cond).branch endLabel false
    inside env endLabel (some condLabel) fun inner ↦ lowerStmt ctx inner body
    emitJumpIfReachable condLabel
    emitLabel endLabel
  | .doWhile _ body cond => do
    let n ← newConstruct
    let bodyLabel := labelName "do" n "body"
    let condLabel := labelName "do" n "cond"
    let endLabel := labelName "do" n "end"
    emitLabel bodyLabel
    inside env endLabel (some condLabel) fun inner ↦ lowerStmt ctx inner body
    emitLabel condLabel
    (exprCode ctx cond).branch bodyLabel true
    emitLabel endLabel
  | .forLoop _ init cond step body => do
    let n ← newConstruct
    let condLabel := labelName "for" n "cond"
    let stepLabel := labelName "for" n "step"
    let endLabel := labelName "for" n "end"
    withScope ctx do
      lowerStmts ctx env init
      emitLabel condLabel
      branchUnless ctx endLabel cond
      inside env endLabel (some stepLabel) fun inner ↦ lowerStmt ctx inner body
      emitLabel stepLabel
      runAll ctx step
      emitJump condLabel
      emitLabel endLabel
  | .foreach _ var varTy collection body => do
    let seqTy := ctx.typeOf collection.id
    if seqTy.isSequence then
      let n ← newConstruct
      let condLabel := labelName "foreach" n "cond"
      let stepLabel := labelName "foreach" n "step"
      let endLabel := labelName "foreach" n "end"
      withScope ctx do
        let seq ← declareLocal ("foreach" ++ toString n ++ "$seq") seqTy
        (discard ((exprCode ctx collection).value (some seq)) : Lower Unit)
        let index ← newRegister .i32
        let len ← newRegister .i32
        emit .move [index, .int 0]
        emit .arrayLen [len, seq]
        emitLabel condLabel
        emit .jumpGe [index, len, .label endLabel]
        inside env endLabel (some stepLabel) fun inner ↦ withScope ctx do
          let item ← declareLocal var varTy
          emit .arrayGet [item, seq, index]
          lowerStmt ctx inner body
        emitLabel stepLabel
        emit .add [index, index, .int 1]
        emitJump condLabel
        emitLabel endLabel
    else fail (.unsupported ("foreach over " ++ seqTy.text) collection.span)
  | .switch _ subject sections => do
    let n ← newConstruct
    if sections.isEmpty then (discard ((exprCode ctx subject).value none) : Lower Unit)
    else
      let endLabel := labelName "switch" n "end"
      dispatch ctx subject (switchCases n 0 sections)
      emitJump (defaultLabel n sections)
      withScope ctx do
        inside env endLabel none fun inner ↦ lowerSections ctx inner n 0 sections
        emitLabel endLabel
  | .breakOut span => lowerBreak ctx env span
  | .continueLoop span => lowerContinue ctx env span
  | .ret _ value => lowerReturn ctx value
  | .throw span value => lowerThrow ctx env span value
  | .tryCatch _ body catches cleanup => do
    let n ← newConstruct
    let endLabel := labelName "try" n "end"
    protectedSteps (if catches.isEmpty then none else some (labelName "try" n "catch"))
      (cleanup.map fun _ ↦ labelName "try" n "finally") endLabel
      (lowerBody ctx env body)
      (do
        lowerClauses ctx { env with inCatch := true } n 0 endLabel catches
        rethrowUnmatched n catches)
      (lowerCleanup ctx env cleanup)
  | .empty _ => pure ()
  | .unsupported span construct => fail (.unsupported construct span)

def lowerStmts (ctx : Context) (env : Surroundings) : List Stmt → m Unit
  | [] => pure ()
  | s :: rest => do
    lowerStmt ctx env s
    lowerStmts ctx env rest

/-- Emit the code of a body in a scope of its own. -/
def lowerBody (ctx : Context) (env : Surroundings) : Body → m Unit
  | .mk stmts _ => withScope ctx (lowerStmts ctx env stmts)

/-- Emit the code of the sections of a switch from number `i` on. They share one scope. -/
def lowerSections (ctx : Context) (env : Surroundings) (n i : Nat) : List SwitchSection → m Unit
  | [] => pure ()
  | .mk _ body :: rest => do
    emitLabel (caseLabel n i)
    lowerStmts ctx env body
    trapFallthrough body
    lowerSections ctx env n (i + 1) rest

/-- Emit the code of the catch clauses from number `j` on. -/
def lowerClauses (ctx : Context) (env : Surroundings) (n j : Nat) (endLabel : String) :
    List CatchClause → m Unit
  | [] => pure ()
  | .mk ty var (.mk stmts _) :: rest => do
    startClause n j
    testClause n j ty
    withScope ctx do
      bindException ty var
      lowerStmts ctx env stmts
    emitJumpIfReachable endLabel
    lowerClauses ctx env n (j + 1) endLabel rest

def lowerCleanup (ctx : Context) (env : Surroundings) : Option Body → m Unit
  | none => pure ()
  | some body => lowerBody ctx env body

end

end

end MethodCompiler.Lowering
