import MethodCompiler.Proofs.FormedCode
import MethodCompiler.Proofs.JumpCode
import MethodCompiler.Proofs.Words

/-!
# Control flow

The code of a method makes the calls that running its body makes, in the same order, and ends exactly if
the body does. What the opcodes compute and what the called methods do is the same for both.

The description of code by `Steps` tells where control may go, not for which values it goes there. What a
statement means is defined along the tree, so the code is compared with it along the tree as well, with a
rule for each construct.
-/

namespace MethodCompiler.Lowering

variable {V : Type} {M : Machine V} {S : Meaning V} {ctx : Context}

/-! ### Statements -/

/-- Statements that end in an explicit way out do not run past their end. -/
private theorem execAll_ne_next {n : Nat} {body : List Stmt} (hs : StructuredAll ctx body)
    (h : body.getLast?.any Stmt.isExplicitExit = true) (e : Env V) :
    (S.execAll ctx n body e).1 ≠ .next := by
  induction body generalizing e with
  | nil => cases h
  | cons s rest ih =>
    rw [StructuredAll] at hs
    rw [Meaning.execAll, Outcome.andThen]
    split
    · next hnext =>
      cases rest with
      | nil =>
        -- the last statement itself is the way out
        cases s with
        | breakOut | continueLoop | ret => simp [Meaning.exec] at hnext
        | throw => simp [Structured] at hs
        | _ => cases h
      | cons s' rest =>
        rw [List.getLast?_cons_cons] at h
        exact ih hs.2 h _
    · next hnext => exact hnext

mutual

/-- The code of a statement runs it. -/
theorem performs_lowerStmt (hI : Implements M S) {env : Surroundings} :
    (s : Stmt) → Structured ctx s →
      Performs M ctx env (lowerStmt ctx env s) fun n e ↦ S.exec ctx n s e
  | .block _ body, hs => by
    rw [Structured] at hs
    simp only [lowerStmt, Meaning.exec]
    exact performs_lowerBody hI body hs
  | .eval _ e, hs => by
    rw [Structured] at hs
    simp only [lowerStmt, Meaning.exec]
    exact .ofRun fun st hl ↦ run_alone hI hs hl
  | .ifElse _ cond thenBranch none, hs => by
    rw [Structured] at hs
    simp only [lowerStmt, Meaning.exec]
    exact .numbered fun n ↦ performs_ifThen hI hs.1 (performs_lowerStmt hI thenBranch hs.2) _
  | .ifElse _ cond thenBranch (some elseBranch), hs => by
    rw [Structured] at hs
    simp only [lowerStmt, Meaning.exec]
    exact .numbered fun n ↦ performs_ifElse hI hs.1 (performs_lowerStmt hI thenBranch hs.2.1)
      (performs_lowerStmt hI elseBranch hs.2.2) _ _
  | .whileLoop _ cond body, hs => by
    rw [Structured] at hs
    simp only [lowerStmt, Meaning.exec]
    exact .numbered fun n ↦ performs_loop (tests_branch hI hs.1 _) (goesBack_jump _)
      fun inner _ ↦ performs_lowerStmt hI body hs.2
  | .doWhile _ body cond, hs => by
    rw [Structured] at hs
    simp only [lowerStmt, Meaning.exec]
    exact .numbered fun n ↦ performs_doWhile hI hs.2 fun inner _ ↦ performs_lowerStmt hI body hs.1
  | .forLoop _ init cond step body, hs => by
    rw [Structured] at hs
    obtain ⟨hinit, hcond, hstep, hbody⟩ := hs
    simp only [lowerStmt, Meaning.exec]
    refine .numbered fun n ↦ .inScope ?_
    refine (performs_lowerStmts hI init hinit).seq ?_
    have hloop {test : Lower Unit} {f : Env V → Bool × Env V}
        (htest : Tests M ctx test (labelName "for" n "end") f) : Performs M ctx env _ _ :=
      performs_loop htest (goesBack_steps hI hstep (labelName "for" n "cond")
        (labelName "for" n "step")) fun inner _ ↦ performs_lowerStmt hI body hbody
    simp only [bind_assoc] at hloop
    cases cond with
    | none => exact hloop (tests_nothing _)
    | some c => exact hloop (tests_branch hI (hcond c rfl) _)
  | .switch _ subject sections, hs => by
    rw [Structured] at hs
    simp only [lowerStmt, Meaning.exec]
    refine .numbered fun n ↦ ?_
    cases sections with
    | nil =>
      refine Performs.ofRun (f := fun e ↦ (S.eval ctx subject e).2) fun st hl ↦ ?_
      obtain ⟨v, st', part, hrun, hext, heff⟩ := run_value hI hs.1 hl
      have hdrop : (discard ((exprCode ctx subject).value none) : Lower Unit) st = .ok () st' := by
        rw [discard_eq, run_bind hrun]
        rfl
      refine ⟨st', part, hdrop, hext, fun σ e hh ↦ ?_⟩
      obtain ⟨τ, hex, hτ, -⟩ := heff σ e hh
      exact ⟨τ, hex, hτ⟩
    | cons s rest =>
      exact performs_switch hI hs.1 fun inner _ ↦ emits_lowerSections hI n 0 (s :: rest) hs.2
  | .breakOut span, _ => by
    simp only [lowerStmt, Meaning.exec]
    exact performs_lowerBreak span
  | .continueLoop span, _ => by
    simp only [lowerStmt, Meaning.exec]
    exact performs_lowerContinue span
  | .ret _ none, _ => by
    simp only [lowerStmt, Meaning.exec]
    exact performs_ret
  | .empty _, _ => by
    simp only [lowerStmt, Meaning.exec]
    exact .pure
  | .declare .., hs | .foreach .., hs | .ret _ (some _), hs | .throw .., hs | .tryCatch .., hs
  | .unsupported .., hs => by simp only [Structured] at hs

private theorem performs_lowerStmts (hI : Implements M S) {env : Surroundings} :
    (stmts : List Stmt) → StructuredAll ctx stmts →
      Performs M ctx env (lowerStmts ctx env stmts) fun n e ↦ S.execAll ctx n stmts e
  | [], _ => by
    simp only [lowerStmts, Meaning.execAll]
    exact .pure
  | s :: rest, hs => by
    rw [StructuredAll] at hs
    simp only [lowerStmts, Meaning.execAll]
    exact (performs_lowerStmt hI s hs.1).seq (performs_lowerStmts hI rest hs.2)

private theorem performs_lowerBody (hI : Implements M S) {env : Surroundings} :
    (body : Body) → StructuredBody ctx body →
      Performs M ctx env (lowerBody ctx env body) fun n e ↦ S.execBody ctx n body e
  | .mk stmts _, hs => by
    rw [StructuredBody] at hs
    simp only [lowerBody, Meaning.execBody]
    exact .inScope (performs_lowerStmts hI stmts hs)

private theorem emits_lowerSections (hI : Implements M S) {env : Surroundings} (n i : Nat) :
    (sections : List SwitchSection) → StructuredSections ctx sections →
      Emits (lowerSections ctx env n i sections) fun _ _ ↦
        SectionsAt M ctx env.targets n i sections.length
          fun j m e ↦ S.execSection ctx m j sections e
  | [], _ => by
    intro st u st' _ hrun
    rw [lowerSections] at hrun
    cases hrun
    exact ⟨[], (Extends.refl st).toAdds, fun _ _ _ _ _ j hj ↦ absurd hj (Nat.not_lt_zero j)⟩
  | .mk labels body :: rest, hs => by
    rw [StructuredSections] at hs
    rw [lowerSections]
    refine emits_section ?_ ?_ ?_
    · simp only [Meaning.execSection]
      exact performs_lowerStmts hI body hs.1
    · intro hexit m e
      simp only [Meaning.execSection]
      exact execAll_ne_next hs.1 hexit e
    · simp only [Meaning.execSection]
      exact emits_lowerSections hI n (i + 1) rest hs.2

end

/-- A method returns where control runs off the end of its body. -/
theorem performs_lowerMethodBody (hI : Implements M S) (hs : StructuredBody ctx ctx.method.body) :
    Performs M ctx {} (lowerMethodBody ctx) fun n e ↦
      Outcome.andThen (S.execBody ctx n ctx.method.body e) fun e ↦ (.returned, e) := by
  refine (performs_lowerBody hI _ hs).seq ?_
  intro st u st' hl hrun
  rcases ifReachable_ok hrun with hrun | ⟨hclosed, rfl⟩
  · exact performs_ret st u st' hl hrun
  · rw [Closed, State.bare, List.getLast?_map, Option.any_map] at hclosed
    exact ⟨[], (Extends.refl _).toAdds, fun hopen ↦ absurd hclosed hopen⟩

end MethodCompiler.Lowering

namespace MethodCompiler

variable {V : Type} {M : Machine V} {S : Meaning V} {code : List Statement} {c d e : Config V}
  {j k : Nat}

/-! ### Runs of the machine -/

namespace Machine

/-- A step makes at most one call more. -/
private theorem calls_grow_of_step (h : M.step code c = some d) : c.2.calls <+: d.2.calls := by
  have hwrite (σ : Store V) (dst : Operand) (v : V) : σ.calls <+: (σ.write dst v).calls := by
    unfold Store.write
    split <;> exact List.prefix_refl _
  have hgo {l : String} (h : (labelPosition? code l).map (·, c.2) = some d) :
      c.2.calls <+: d.2.calls := by
    obtain ⟨p, -, rfl⟩ := Option.map_eq_some_iff.mp h
    exact List.prefix_refl _
  obtain ⟨s, -, h⟩ := Option.bind_eq_some_iff.mp h
  simp only at h
  split at h
  · obtain ⟨dst, -, h⟩ := Option.bind_eq_some_iff.mp h
    cases h
    exact hwrite _ _ _
  · split at h
    · obtain ⟨l, -, h⟩ := Option.bind_eq_some_iff.mp h
      split at h
      · exact hgo h
      · cases h
        exact List.prefix_refl _
    · split at h
      case h_6 => exact hgo h
      all_goals cases h
      · exact List.prefix_refl _
      · exact hwrite _ _ _
      · exact List.prefix_refl _
      · exact List.IsPrefix.trans (List.prefix_append _ _) (hwrite (M.call c.2 _).2 _ _)
      · exact List.prefix_append _ _

private theorem Runs.calls_grow (h : M.Runs code k c d) : c.2.calls <+: d.2.calls := by
  induction h with
  | refl => exact List.prefix_refl _
  | head hs _ ih => exact (calls_grow_of_step hs).trans ih

/-- Of two runs from one configuration, the longer one goes through the end of the other. -/
theorem Runs.rest (h : M.Runs code j c d) (h' : M.Runs code k c e) (hjk : j ≤ k) :
    M.Runs code (k - j) d e := by
  induction h generalizing k with
  | refl => exact h'
  | head hs _ ih =>
    cases h' with
    | refl => cases hjk
    | head hs' h' =>
      rw [hs] at hs'
      cases hs'
      rw [Nat.add_sub_add_right]
      exact ih h' (Nat.le_of_succ_le_succ hjk)

/-- A run that ends. -/
def Ends (M : Machine V) (code : List Statement) (c d : Config V) : Prop :=
  M.Reaches code 0 c d ∧ M.step code d = none

/-- No run is longer than one that ends. -/
theorem Runs.le_of_ends (h : M.Runs code j c d) (hd : M.step code d = none)
    (h' : M.Runs code k c e) : k ≤ j := by
  by_contra hlt
  have hrest := h.rest h' (Nat.le_of_not_le hlt)
  cases hrest' : k - j with
  | zero => omega
  | succ i =>
    rw [hrest'] at hrest
    cases hrest with
    | head hs _ =>
      rw [hd] at hs
      cases hs

private theorem Ends.unique (h : M.Ends code c d) (h' : M.Ends code c e) : d = e := by
  obtain ⟨⟨j, -, hj⟩, hd⟩ := h
  obtain ⟨⟨k, -, hk⟩, he⟩ := h'
  have hjk := Nat.le_antisymm (hk.le_of_ends he hj) (hj.le_of_ends hd hk)
  have hrest := hj.rest hk (Nat.le_of_eq hjk)
  rw [hjk, Nat.sub_self] at hrest
  cases hrest
  rfl

end Machine

/-! ### Methods -/

open Lowering

/-- What is known while a method is compiled. -/
def methodContext (m : Method) (symbols : SymbolTable) (o : Options) : Context :=
  { method := m, symbols, comments := o.comments }

/-- The statement at which the code of a method ends. -/
def Outcome.lastOpcode : Outcome → Opcode
  | .trapped => .trap
  | _ => .ret

/-- Running a body ends with a result, whatever the bound, if it is large enough. -/
def Meaning.Finishes (S : Meaning V) (ctx : Context) (body : Body) (env : Env V)
    (r : Outcome × Env V) : Prop :=
  r.1 ≠ .unfinished ∧ ∃ n, ∀ k ≥ n, S.execBody ctx k body env = r

private theorem Meaning.finishes_of_ne {ctx : Context} {body : Body} {env : Env V} {n : Nat}
    (h : (S.execBody ctx n body env).1 ≠ .unfinished) :
    S.Finishes ctx body env (S.execBody ctx n body env) :=
  ⟨h, n, fun _ hk ↦ execBody_prolongs hk body env h⟩

private theorem step_eq_none_of_opcodeAt {o : Outcome} (h : opcodeAt? code c.1 = some o.lastOpcode) :
    M.step code c = none := by
  obtain ⟨s, hs, hop⟩ := Option.map_eq_some_iff.mp h
  have hs' : s.op = .trap ∨ s.op = .ret := by
    rw [hop]
    cases o <;> simp [Outcome.lastOpcode]
  rcases hs' with hs' | hs' <;>
    simp [Machine.step, hs, hs', Opcode.isComputation, Opcode.isConditionalBranch]

/-- Outside of all constructs, a run ends at `return` or `trap`. -/
private theorem Lowering.Lands.ends {ctx : Context} {past n : Nat} {r : Outcome × Env V}
    (h : Lands M ctx code [] past n c (Outcome.andThen r fun e ↦ (.returned, e))) :
    ∃ d, Holds M ctx [] none d.2 r.2 ∧ M.Reaches code (leastSteps n r.1) c d ∧
      (r.1 ≠ .unfinished → opcodeAt? code d.1 = some r.1.lastOpcode) := by
  obtain ⟨o, env⟩ := r
  obtain ⟨p, τ, hp, hτ, hreach⟩ := h
  refine ⟨(p, τ), ?_⟩
  cases o with
  | next | returned | trapped => exact ⟨hτ, hreach, fun _ ↦ hp⟩
  | unfinished => exact ⟨hτ, hreach, fun hne ↦ absurd rfl hne⟩
  | breakOut =>
    obtain ⟨t, ht, -⟩ := hp
    cases ht
  | continueLoop =>
    obtain ⟨l, depth, hl, -⟩ := hp
    cases hl

section Method

variable {m : Method} {symbols : SymbolTable} {o : Options}
  {functions functions' : FunctionTable} {f : LoweredFunction} {σ : Store V} {env : Env V}

/-- Where the code of a method comes to when its body is run. -/
theorem reaches_of_lowerMethod (hI : Implements M S)
    (hrun : lowerMethod m symbols o functions = (.ok f, functions'))
    (hs : StructuredBody (methodContext m symbols o) m.body)
    (hh : Holds M (methodContext m symbols o) [] none σ env) (n : Nat) :
    ∃ d, Holds M (methodContext m symbols o) [] none d.2
        (S.execBody (methodContext m symbols o) n m.body env).2 ∧
      M.Reaches f.code (leastSteps n (S.execBody (methodContext m symbols o) n m.body env).1)
        (0, σ) d ∧
      ((S.execBody (methodContext m symbols o) n m.body env).1 ≠ .unfinished →
        opcodeAt? f.code d.1 =
          some (S.execBody (methodContext m symbols o) n m.body env).1.lastOpcode) := by
  have hok : (lowerMethod m symbols o functions).1 = .ok f := by rw [hrun]
  obtain ⟨st, hf, hrecorded⟩ := exists_of_lowerMethod hok
  have hst : (lowerMethodBody (methodContext m symbols o) : Lower Unit) { functions } = .ok () st :=
    (run_lowerMethodBody rfl functions).symm.trans hrecorded
  obtain ⟨part, hadds, hsim⟩ := performs_lowerMethodBody hI hs _ _ st (fun s hs ↦ by cases hs) hst
  have hcode : f.code = part := by
    rw [hf]
    exact hadds.code
  have hwell : f.WellFormed false := wellFormed_of_lowerMethod hok (by rintro ⟨⟩)
  have hdistinct : (labelsOf f.code).Nodup := hwell.nodup_labelsOf
  have hplaced : Placed [] f.code := fun t ht ↦ by cases ht
  exact ((hsim not_closed_nil).1 f.code 0 hdistinct (hcode ▸ CodeAt.refl _) hplaced n σ env hh).ends

/-- The code of a method makes the calls that its body makes, and ends if and only if the body does.
It comes to a `trap` where the body runs off the end of a section of a switch, else to a `return`.

The calls of a run that does not end are compared by what comes before any moment of it. -/
theorem method_code_follows_body (hI : Implements M S)
    (hrun : lowerMethod m symbols o functions = (.ok f, functions'))
    (hs : StructuredBody (methodContext m symbols o) m.body)
    (hh : Holds M (methodContext m symbols o) [] none σ env) :
    ((∃ d, M.Ends f.code (0, σ) d) ↔ ∃ r, S.Finishes (methodContext m symbols o) m.body env r) ∧
    (∀ d r, M.Ends f.code (0, σ) d → S.Finishes (methodContext m symbols o) m.body env r →
      d.2.calls = r.2.calls ∧ opcodeAt? f.code d.1 = some r.1.lastOpcode) ∧
    ∀ calls, (∃ d, M.Reaches f.code 0 (0, σ) d ∧ calls <+: d.2.calls) ↔
      ∃ n, calls <+: (S.execBody (methodContext m symbols o) n m.body env).2.calls := by
  have hreach := reaches_of_lowerMethod hI hrun hs hh
  -- a run that the code ends is finished with as many rounds as the code takes steps
  have hends {n : Nat} (hne : (S.execBody (methodContext m symbols o) n m.body env).1 ≠ .unfinished) :
      ∃ d, M.Ends f.code (0, σ) d ∧
        d.2.calls = (S.execBody (methodContext m symbols o) n m.body env).2.calls ∧
        opcodeAt? f.code d.1 =
          some (S.execBody (methodContext m symbols o) n m.body env).1.lastOpcode := by
    obtain ⟨d, hd, hreach, hlast⟩ := hreach n
    exact ⟨d, ⟨hreach.weaken (Nat.zero_le _), step_eq_none_of_opcodeAt (hlast hne)⟩, hd.calls,
      hlast hne⟩
  refine ⟨⟨?_, ?_⟩, ?_, fun calls ↦ ⟨?_, ?_⟩⟩
  · rintro ⟨d, ⟨k, -, hk⟩, hd⟩
    refine ⟨_, Meaning.finishes_of_ne (n := k + 1) fun hun ↦ ?_⟩
    obtain ⟨e, -, ⟨j, hj, hsteps⟩, -⟩ := hreach (k + 1)
    rw [hun] at hj
    have := hk.le_of_ends hd hsteps
    exact absurd hj (by simp only [leastSteps]; omega)
  · rintro ⟨r, hne, n, hn⟩
    obtain ⟨d, hd, -⟩ := hends (n := n) (by rw [hn n (Nat.le_refl n)]; exact hne)
    exact ⟨d, hd⟩
  · rintro d r hd ⟨hne, n, hn⟩
    have hr := hn n (Nat.le_refl n)
    obtain ⟨d', hd', hcalls, hlast⟩ := hends (n := n) (by rw [hr]; exact hne)
    rw [hd.unique hd', hcalls, hlast, hr]
    exact ⟨rfl, rfl⟩
  · rintro ⟨d, ⟨k, -, hk⟩, hcalls⟩
    refine ⟨k, hcalls.trans ?_⟩
    obtain ⟨e, he, ⟨j, hj, hsteps⟩, hlast⟩ := hreach k
    rw [← he.calls]
    refine (hk.rest hsteps ?_).calls_grow
    by_cases hun : (S.execBody (methodContext m symbols o) k m.body env).1 = .unfinished
    · rw [hun] at hj
      exact hj
    · exact hsteps.le_of_ends (step_eq_none_of_opcodeAt (hlast hun)) hk
  · rintro ⟨n, hcalls⟩
    obtain ⟨d, hd, hreach, -⟩ := hreach n
    exact ⟨d, hreach.weaken (Nat.zero_le _), by rwa [hd.calls]⟩

end Method

/-! ### A loop around a switch -/

private def turnNode (id : NodeId) : Node := ⟨id, Span.none⟩

private def turnCall (id : NodeId) (name : String) : Expr :=
  .call (turnNode id) (.name (turnNode (id + 10)) name) []

private def turnBody : Stmt :=
  .switch Span.none (.name (turnNode 4) "mode")
    [.mk [.case (.int 2)] [.eval Span.none (turnCall 3 "tick"), .breakOut Span.none],
      .mk [.default] [.ret Span.none none]]

/-- `while (more() && !stop()) { switch (mode) { case 2: tick(); break; default: return; } }` -/
private def turnMethod : Method where
  index := 0
  name := "turn"
  params := [{ name := "mode", ty := .i32 }]
  returnTy := .void
  body := .mk [.whileLoop Span.none (.logical (turnNode 0) .and (turnCall 1 "more")
    (.unary (turnNode 5) .not (turnCall 2 "stop"))) turnBody] Span.none

private def turnSymbols : SymbolTable where
  symbols := .ofList [(11, ⟨.method, "more", .bool, true, 1, false, false⟩),
    (12, ⟨.method, "stop", .bool, true, 2, false, false⟩),
    (13, ⟨.method, "tick", .void, true, 3, false, false⟩),
    (4, ⟨.parameter, "mode", .i32, false, 0, false, false⟩)]
  types := .ofList [(1, .bool), (2, .bool), (3, .void)]

/-- Only `more` answers with true, as long as fewer than three calls were made. -/
private def answerMore : Invoke Int32 := fun calls m _ fields ↦
  (if m = 1 ∧ calls.length < 3 then 1 else 0, fields)

private def turnContext : Context := methodContext turnMethod turnSymbols {}

private theorem names_mode :
    Names turnContext [] (.name (turnNode 4) "mode") (.parameter 0) where
  resolved := rfl
  value := rfl
  local_bound _ h := nomatch h
  parameter_ty sym hsym _ := by
    cases hsym
    rfl

private theorem turn_structured : StructuredBody turnContext turnMethod.body := by
  have hcall (id : NodeId) (name : String) {sym : Symbol} (hty : turnContext.IsValue id)
      (hvoid : (turnContext.typeOf id).isVoid = false)
      (hsym : turnContext.symbol? (id + 10) = some sym) (hkind : sym.kind = .method)
      (hstatic : sym.isStatic = true) : Supported turnContext [] (turnCall id name) :=
    .call hty hvoid hsym hkind hstatic fun a ha ↦ by cases ha
  simp only [turnMethod, turnBody, StructuredBody, StructuredAll, Structured, StructuredSections]
  refine ⟨⟨.logical (.value (hcall 1 "more" rfl rfl rfl rfl rfl))
    (.not (.value (hcall 2 "stop" rfl rfl rfl rfl rfl))), .name names_mode, ?_⟩, trivial⟩
  have htick : RunsAlone turnContext (turnCall 3 "tick") :=
    .call rfl rfl rfl rfl fun a ha ↦ by cases ha
  exact ⟨⟨htick, trivial, trivial⟩, ⟨trivial, trivial⟩, trivial⟩

/-- The parameter is 2. -/
private def turnStore : Store Int32 where
  cells
    | .input _ => 2
    | _ => 0
  arguments := []
  calls := []

private def turnEnv : Env Int32 where
  vars
    | .parameter _ => 2
    | _ => 0
  calls := []

private theorem turnStore_holds :
    Holds (wordMachine answerMore) turnContext [] none turnStore turnEnv where
  cells {x c} hx _ := by
    cases x with
    | localVar name => cases hx
    | parameter i | field i =>
      cases hx
      rfl
  constants h := by cases h
  calls := rfl
  arguments := rfl

/-- The section for 2 runs once, and then `more` answers with false. -/
theorem turn_code_follows_body : ∃ f functions d,
    lowerMethod turnMethod turnSymbols {} .empty = (.ok f, functions) ∧
    (wordMachine answerMore).Ends f.code (0, turnStore) d ∧
    d.2.calls = [(1, []), (2, []), (3, []), (1, [])] ∧ opcodeAt? f.code d.1 = some .ret := by
  have hcheck : ((lowerMethod turnMethod turnSymbols {} .empty).1.toOption.any fun _ ↦ true) = true := by
    decide +kernel
  obtain ⟨f, hf, -⟩ := any_toOption.mp hcheck
  have hrun : lowerMethod turnMethod turnSymbols {} .empty =
      (.ok f, (lowerMethod turnMethod turnSymbols {} .empty).2) := by rw [← hf]
  obtain ⟨hends, hcalls, -⟩ := method_code_follows_body (words_implement answerMore) hrun
    turn_structured turnStore_holds
  have hfinishes : (wordMeaning answerMore).Finishes turnContext turnMethod.body turnEnv _ :=
    Meaning.finishes_of_ne (n := 2) (by decide)
  obtain ⟨d, hd⟩ := hends.mpr ⟨_, hfinishes⟩
  obtain ⟨hcalls, hlast⟩ := hcalls d _ hd hfinishes
  exact ⟨_, _, d, hrun, hd, hcalls, hlast⟩

end MethodCompiler
