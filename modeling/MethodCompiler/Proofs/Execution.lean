import MethodCompiler.Proofs.Evaluation
import MethodCompiler.Tree.Stmt

/-!
# Running statements

Statements without declarations, run as they stand in the tree. A number bounds how often each loop goes
round; a run that would need more is unfinished. A larger bound lets an unfinished run go on, and changes
nothing about a finished one.
-/

namespace MethodCompiler

/-- How the run of a statement ends. -/
inductive Outcome where
  /-- Control goes on to the next statement. -/
  | next
  | breakOut
  | continueLoop
  | returned
  /-- A section of a switch was left by its end. -/
  | trapped
  /-- A loop would go round more often than the bound allows. -/
  | unfinished
  deriving DecidableEq, Repr

variable {V : Type}

/-- Go on with something else where control goes on. -/
def Outcome.andThen (r : Outcome × Env V) (f : Env V → Outcome × Env V) : Outcome × Env V :=
  if r.1 = .next then f r.2 else r

/-- Going on with nothing changes no outcome. -/
theorem Outcome.andThen_next (r : Outcome × Env V) : andThen r (fun env ↦ (.next, env)) = r := by
  unfold andThen
  split
  · next h => rw [← h]
  · rfl

namespace Meaning

open Lowering

/-- Testing that a condition does not hold is testing that it holds, with the opposite outcome. -/
theorem test_false (S : Meaning V) (ctx : Context) (e : Expr) (env : Env V) :
    S.test ctx e false env = (!(S.test ctx e true env).1, (S.test ctx e true env).2) := by
  simp [test]

/-- Go on with the next round of a loop where a round does not leave it. -/
def goRound (r : Outcome × Env V) (again : Env V → Outcome × Env V) : Outcome × Env V :=
  match r.1 with
  | .next | .continueLoop => again r.2
  | .breakOut => (.next, r.2)
  | _ => r

/-- Run a body and what follows it while a test holds. -/
def loop (test : Env V → Bool × Env V) (body : Env V → Outcome × Env V) (after : Env V → Env V) :
    Nat → Env V → Outcome × Env V
  | 0, env => (.unfinished, env)
  | n + 1, env =>
    let r := test env
    if r.1 then goRound (body r.2) fun env ↦ loop test body after n (after env) else (.next, r.2)

/-- Run a body, and again while a test after it holds. -/
def loopBack (body : Env V → Outcome × Env V) (test : Env V → Bool × Env V) :
    Nat → Env V → Outcome × Env V
  | 0, env => (.unfinished, env)
  | n + 1, env => goRound (body env) fun env ↦
    let r := test env
    if r.1 then loopBack body test n r.2 else (.next, r.2)

/-- The value is equal to that of a case. -/
def fits (S : Meaning V) (v : V) (ty : Ty) (case : Literal) : Bool :=
  S.truth (S.binary .eq v (S.literal case ty))

/-- The section that a switch goes to: the first one with a case that fits, or else the default. -/
def section? (S : Meaning V) (v : V) (ty : Ty) (sections : List SwitchSection) : Option Nat :=
  (sections.findIdx? (·.cases.any (S.fits v ty))).or
    (sections.findIdx? (·.labels.any CaseLabel.isDefault))

/-- A switch is left by `break`; control must not run off the end of a section. -/
def leaveSwitch (r : Outcome × Env V) : Outcome × Env V :=
  match r.1 with
  | .next => (.trapped, r.2)
  | .breakOut => (.next, r.2)
  | _ => r

mutual

/-- Run a statement, with each loop going round at most `n` times. -/
def exec (S : Meaning V) (ctx : Context) (n : Nat) : Stmt → Env V → Outcome × Env V
  | .block _ body, env => S.execBody ctx n body env
  | .eval _ e, env => (.next, (S.eval ctx e env).2)
  | .ifElse _ cond thenBranch none, env =>
    let r := S.test ctx cond true env
    if r.1 then S.exec ctx n thenBranch r.2 else (.next, r.2)
  | .ifElse _ cond thenBranch (some elseBranch), env =>
    let r := S.test ctx cond true env
    if r.1 then S.exec ctx n thenBranch r.2 else S.exec ctx n elseBranch r.2
  | .whileLoop _ cond body, env =>
    loop (S.test ctx cond true) (S.exec ctx n body) id n env
  | .doWhile _ body cond, env =>
    loopBack (S.exec ctx n body) (S.test ctx cond true) n env
  | .forLoop _ init cond step body, env =>
    -- without a condition the loop goes on
    Outcome.andThen (S.execAll ctx n init env) fun env ↦
      loop (fun env ↦ cond.elim (true, env) fun cond ↦ S.test ctx cond true env)
        (S.exec ctx n body) (fun env ↦ (S.evalAll ctx step env).2) n env
  | .switch _ subject sections, env =>
    let r := S.eval ctx subject env
    match S.section? r.1 (ctx.typeOf subject.id) sections with
    | none => (.next, r.2)
    | some i => leaveSwitch (S.execSection ctx n i sections r.2)
  | .breakOut _, env => (.breakOut, env)
  | .continueLoop _, env => (.continueLoop, env)
  | .ret _ _, env => (.returned, env)
  | _, env => (.next, env)

/-- Run statements one after the other. -/
def execAll (S : Meaning V) (ctx : Context) (n : Nat) : List Stmt → Env V → Outcome × Env V
  | [], env => (.next, env)
  | s :: rest, env => Outcome.andThen (S.exec ctx n s env) (S.execAll ctx n rest)

def execBody (S : Meaning V) (ctx : Context) (n : Nat) : Body → Env V → Outcome × Env V
  | .mk stmts _, env => S.execAll ctx n stmts env

/-- Run the section with a number. -/
def execSection (S : Meaning V) (ctx : Context) (n : Nat) :
    Nat → List SwitchSection → Env V → Outcome × Env V
  | _, [], env => (.next, env)
  | 0, .mk _ body :: _, env => S.execAll ctx n body env
  | i + 1, _ :: rest, env => S.execSection ctx n i rest env

end

/-! ### Bounds -/

/-- Of two runs, one has a larger bound: it is the same where the other is finished. -/
def Prolongs (run run' : Env V → Outcome × Env V) : Prop :=
  ∀ env, (run env).1 ≠ .unfinished → run' env = run env

section Prolongs

variable {run run' rest rest' : Env V → Outcome × Env V}

private theorem Prolongs.andThen (h : Prolongs run run') (hrest : Prolongs rest rest') :
    Prolongs (fun env ↦ Outcome.andThen (run env) rest)
      fun env ↦ Outcome.andThen (run' env) rest' := by
  intro env hne
  simp only [Outcome.andThen] at hne ⊢
  by_cases hnext : (run env).1 = .next
  · rw [if_pos hnext] at hne
    rw [h env (by rw [hnext]; decide), if_pos hnext, if_pos hnext, hrest _ hne]
  · rw [if_neg hnext] at hne
    rw [h env hne, if_neg hnext, if_neg hnext]

private theorem Prolongs.goRound (h : Prolongs run run') (hrest : Prolongs rest rest') :
    Prolongs (fun env ↦ goRound (run env) rest) fun env ↦ goRound (run' env) rest' := by
  intro env hne
  have hrun : run' env = run env := by
    apply h
    intro hun
    simp only [Meaning.goRound, hun] at hne
    exact hne rfl
  simp only [Meaning.goRound, hrun] at hne ⊢
  cases hround : (run env).1 <;> rw [hround] at hne
  all_goals exact hrest _ hne

private theorem Prolongs.loop (h : Prolongs run run') (test : Env V → Bool × Env V)
    (after : Env V → Env V) {i j : Nat} (hij : i ≤ j) :
    Prolongs (loop test run after i) (loop test run' after j) := by
  induction i generalizing j with
  | zero => exact fun env hne ↦ absurd rfl hne
  | succ i ih =>
    obtain ⟨j, rfl⟩ : ∃ j', j = j' + 1 := Nat.exists_eq_succ_of_ne_zero (by omega)
    intro env hne
    simp only [Meaning.loop] at hne ⊢
    by_cases htest : (test env).1 = true
    · rw [if_pos htest] at hne ⊢
      rw [if_pos htest]
      exact h.goRound (fun env ↦ ih (Nat.le_of_succ_le_succ hij) (after env)) _ hne
    · rw [if_neg htest, if_neg htest]

private theorem Prolongs.loopBack (h : Prolongs run run') (test : Env V → Bool × Env V) {i j : Nat}
    (hij : i ≤ j) : Prolongs (loopBack run test i) (loopBack run' test j) := by
  induction i generalizing j with
  | zero => exact fun env hne ↦ absurd rfl hne
  | succ i ih =>
    obtain ⟨j, rfl⟩ : ∃ j', j = j' + 1 := Nat.exists_eq_succ_of_ne_zero (by omega)
    refine h.goRound fun env hne ↦ ?_
    simp only at hne ⊢
    by_cases htest : (test env).1 = true
    · rw [if_pos htest] at hne ⊢
      rw [if_pos htest]
      exact ih (Nat.le_of_succ_le_succ hij) _ hne
    · rw [if_neg htest, if_neg htest]

end Prolongs

section Bounds

variable {S : Meaning V} {ctx : Context} {n m : Nat}

mutual

/-- A larger bound changes nothing about a run that finishes. -/
theorem exec_prolongs (hnm : n ≤ m) : (s : Stmt) → Prolongs (S.exec ctx n s) (S.exec ctx m s)
  | .block _ body => by
    intro env
    simp only [exec]
    exact execBody_prolongs hnm body env
  | .ifElse _ cond thenBranch none => by
    intro env
    simp only [exec]
    split
    · exact exec_prolongs hnm thenBranch _
    · exact fun _ ↦ rfl
  | .ifElse _ cond thenBranch (some elseBranch) => by
    intro env
    simp only [exec]
    split
    · exact exec_prolongs hnm thenBranch _
    · exact exec_prolongs hnm elseBranch _
  | .whileLoop _ cond body => by
    intro env
    simp only [exec]
    exact (exec_prolongs hnm body).loop _ _ hnm env
  | .doWhile _ body cond => by
    intro env
    simp only [exec]
    exact (exec_prolongs hnm body).loopBack _ hnm env
  | .forLoop _ init cond step body => by
    intro env
    simp only [exec]
    exact (execAll_prolongs hnm init).andThen ((exec_prolongs hnm body).loop _ _ hnm) env
  | .switch _ subject sections => by
    intro env
    simp only [exec]
    split
    · exact fun _ ↦ rfl
    · next i _ =>
      intro hne
      rw [execSection_prolongs hnm i sections]
      intro hun
      simp only [leaveSwitch, hun] at hne
      exact hne rfl
  | .eval .. | .breakOut _ | .continueLoop _ | .ret .. | .declare .. | .foreach .. | .throw ..
  | .tryCatch .. | .empty _ | .unsupported .. => by
    intro env _
    simp only [exec]

private theorem execAll_prolongs (hnm : n ≤ m) : (stmts : List Stmt) →
    Prolongs (S.execAll ctx n stmts) (S.execAll ctx m stmts)
  | [] => by
    intro env _
    simp only [execAll]
  | s :: rest => by
    intro env
    simp only [execAll]
    exact (exec_prolongs hnm s).andThen (execAll_prolongs hnm rest) env

/-- A body with more steps at its disposal runs as before, or further. -/
theorem execBody_prolongs (hnm : n ≤ m) : (body : Body) →
    Prolongs (S.execBody ctx n body) (S.execBody ctx m body)
  | .mk stmts _ => by
    intro env
    simp only [execBody]
    exact execAll_prolongs hnm stmts env

private theorem execSection_prolongs (hnm : n ≤ m) (i : Nat) : (sections : List SwitchSection) →
    Prolongs (S.execSection ctx n i sections) (S.execSection ctx m i sections)
  | [] => by
    intro env _
    simp only [execSection]
  | .mk _ body :: rest => by
    intro env
    cases i with
    | zero =>
      simp only [execSection]
      exact execAll_prolongs hnm body env
    | succ i =>
      simp only [execSection]
      exact execSection_prolongs hnm i rest env

end

end Bounds

end Meaning

namespace Lowering

/-- The expressions that can stand alone: those over value types, and static calls without a result. -/
inductive RunsAlone (ctx : Context) : Expr → Prop
  | value {e : Expr} : Supported ctx [] e → RunsAlone ctx e
  | call {n : Node} {callee : Expr} {args : List Expr} {sym : Symbol} :
      (ctx.typeOf n.id).isVoid = true → ctx.symbol? callee.id = some sym → sym.kind = .method →
      sym.isStatic = true → (∀ a ∈ args, Supported ctx [] a) → RunsAlone ctx (.call n callee args)

/-- The conditions of statements: expressions over value types, and truth values, negations and logical
expressions of conditions, whose own types do not matter. -/
inductive Condition (ctx : Context) : Expr → Prop
  | value {e : Expr} : Supported ctx [] e → Condition ctx e
  | bool (n : Node) (b : Bool) : Condition ctx (.literal n (.bool b))
  | not {n : Node} {a : Expr} : Condition ctx a → Condition ctx (.unary n .not a)
  | logical {n : Node} {op : LogicalOp} {a b : Expr} :
      Condition ctx a → Condition ctx b → Condition ctx (.logical n op a b)

mutual

/-- The statements that can be run: expressions over value types and static calls, choices, loops,
switches, and ways to leave them. -/
def Structured (ctx : Context) : Stmt → Prop
  | .block _ body => StructuredBody ctx body
  | .eval _ e => RunsAlone ctx e
  | .ifElse _ cond thenBranch none => Condition ctx cond ∧ Structured ctx thenBranch
  | .ifElse _ cond thenBranch (some elseBranch) =>
    Condition ctx cond ∧ Structured ctx thenBranch ∧ Structured ctx elseBranch
  | .whileLoop _ cond body => Condition ctx cond ∧ Structured ctx body
  | .doWhile _ body cond => Structured ctx body ∧ Condition ctx cond
  | .forLoop _ init cond step body =>
    StructuredAll ctx init ∧ (∀ c ∈ cond, Condition ctx c) ∧ (∀ e ∈ step, RunsAlone ctx e) ∧
      Structured ctx body
  | .switch _ subject sections => Supported ctx [] subject ∧ StructuredSections ctx sections
  | .breakOut _ | .continueLoop _ | .ret _ none | .empty _ => True
  | _ => False

def StructuredAll (ctx : Context) : List Stmt → Prop
  | [] => True
  | s :: rest => Structured ctx s ∧ StructuredAll ctx rest

def StructuredBody (ctx : Context) : Body → Prop
  | .mk stmts _ => StructuredAll ctx stmts

def StructuredSections (ctx : Context) : List SwitchSection → Prop
  | [] => True
  | .mk _ body :: rest => StructuredAll ctx body ∧ StructuredSections ctx rest

end

end Lowering

end MethodCompiler
