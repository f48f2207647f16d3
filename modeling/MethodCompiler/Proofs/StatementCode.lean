import MethodCompiler.Lowering.Function
import MethodCompiler.Proofs.AssignmentCode
import MethodCompiler.Proofs.Execution

/-!
# The code of statements runs them

The code of a statement, entered where control can be, makes the calls that running the statement makes
and goes where the outcome of the run says. One lemma for each kind of statement takes this from its
parts to the whole. Where a run is unfinished, the code has taken at least as many steps as the bound on
loops allows rounds.
-/

namespace MethodCompiler.Lowering

variable {V : Type} {M : Machine V} {S : Meaning V} {ctx : Context}

/-! ### Scopes without locals -/

def NoLocals (scopes : List Scope) : Prop := ∀ s ∈ scopes, s = []

private theorem NoLocals.binding? {scopes : List Scope} (h : NoLocals scopes) (name : String) :
    binding? scopes name = none := by
  rw [Lowering.binding?, List.findSome?_eq_none_iff]
  intro s hs
  rw [h s hs]
  rfl

private theorem NoLocals.push {scopes : List Scope} (h : NoLocals scopes) : NoLocals ([] :: scopes) := by
  intro s hs
  rcases List.mem_cons.mp hs with rfl | hs
  · rfl
  · exact h s hs

/-- Without locals there is nothing in the scopes to clear. -/
theorem NoLocals.flatten {scopes : List Scope} (h : NoLocals scopes) (k : Nat) :
    (scopes.take k).flatten = [] := by
  rw [List.flatten_eq_nil_iff]
  exact fun s hs ↦ h s (List.mem_of_mem_take hs)

private theorem NoLocals.cellOf {scopes : List Scope} (h : NoLocals scopes) (x : Variable) :
    cellOf ctx scopes x = cellOf ctx [] x := by
  cases x with
  | localVar name =>
    rw [Lowering.cellOf, h.binding? name]
    rfl
  | parameter i | field i => rfl

private theorem NoLocals.wellScoped {st : State} (h : NoLocals st.scopes) : WellScoped st where
  below hb := by
    rw [h.binding?] at hb
    cases hb
  named hb := by
    rw [h.binding?] at hb
    cases hb
  distinct hb := by
    rw [h.binding?] at hb
    cases hb

private theorem NoLocals.holds_iff {scopes : List Scope} (h : NoLocals scopes) {σ : Store V} {env : Env V} :
    Holds M ctx scopes none σ env ↔ Holds M ctx [] none σ env := by
  constructor
  · intro hh
    exact ⟨fun hx ↦ hh.cells (by rw [h.cellOf]; exact hx), (fun hb ↦ by cases hb),
      hh.calls, hh.arguments⟩
  · intro hh
    refine ⟨fun hx ↦ hh.cells (by rw [← h.cellOf]; exact hx), ?_, hh.calls, hh.arguments⟩
    intro name v hb
    rw [h.binding?] at hb
    cases hb

private theorem Names.inScopes {e : Expr} {x : Variable} (hn : Names ctx [] e x) (scopes : List Scope) :
    Names ctx scopes e x where
  resolved := hn.resolved
  value := hn.value
  local_bound name hx := by
    obtain ⟨r, hr⟩ := hn.local_bound name hx
    cases hr
  parameter_ty := hn.parameter_ty

private theorem Supported.inScopes {e : Expr} (hs : Supported ctx [] e) (scopes : List Scope) :
    Supported ctx scopes e := by
  induction hs with
  | literal hty hv => exact .literal hty hv
  | name hn => exact .name (hn.inScopes scopes)
  | constant _ _ hb => cases hb
  | unary hty _ ih => exact .unary hty ih
  | binary hty _ _ iha ihb => exact .binary hty iha ihb
  | logical hty _ _ iha ihb => exact .logical hty iha ihb
  | conditional hty _ _ _ ihc iha ihb => exact .conditional hty ihc iha ihb
  | assign hty hn _ ih => exact .assign hty (hn.inScopes scopes) ih
  | incDec hty hn hone => exact .incDec hty (hn.inScopes scopes) hone
  | call hty hvoid hsym hkind hstatic _ ih => exact .call hty hvoid hsym hkind hstatic ih

/-! ### Expressions in statements -/

variable {st : State} {e : Expr}

/-- The value of an expression that a statement uses. -/
theorem run_value (hI : Implements M S) (hs : Supported ctx [] e) (hl : NoLocals st.scopes) :
    ∃ v st' part, (exprCode ctx e).value none st = .ok v st' ∧ Extends st st' part ∧
      ∀ σ env, Holds M ctx [] none σ env → ∃ τ, M.Executes part σ τ ∧
        Holds M ctx [] none τ (S.eval ctx e env).2 ∧ M.read τ v = (S.eval ctx e env).1 := by
  obtain ⟨v, st', part, hrun, hext, -, heff⟩ :=
    ((hs.inScopes st.scopes).faithful hI).value rfl (destination_none st) hl.wellScoped
  refine ⟨v, st', part, hrun, hext, fun σ env hh ↦ ?_⟩
  obtain ⟨τ, env', hex, hfol, rfl, hread⟩ := heff σ env (hl.holds_iff.mpr hh)
  exact ⟨τ, hex, hl.holds_iff.mp hfol.holds, hread⟩

private theorem Condition.decides (hI : Implements M S) (hc : Condition ctx e) (target : String)
    (sense : Bool) :
    Decides M ctx st ((exprCode ctx e).branch target sense) target (S.test ctx e sense) := by
  induction hc generalizing st target sense with
  | value hs => exact ((hs.inScopes st.scopes).faithful hI).branch target sense rfl
  | bool n b => exact decides_bool hI n b target sense
  | @not n a _ ih =>
    rw [hI.test_not]
    exact ih target (!sense)
  | logical _ _ iha ihb =>
    exact decides_logical hI (fun target sense _ ↦ iha target sense)
      (fun target sense _ ↦ ihb target sense) rfl

/-- The branch on a condition of a statement. -/
theorem run_branch (hI : Implements M S) (hc : Condition ctx e) (hl : NoLocals st.scopes)
    (target : String) (sense : Bool) :
    ∃ st' part, (exprCode ctx e).branch target sense st = .ok () st' ∧ Adds st st' part ∧
      (∀ env, (S.test ctx e sense env).1 = false → ¬Closed part) ∧
      ∀ σ env, Holds M ctx [] none σ env → ∃ τ,
        M.Branches part target (S.test ctx e sense env).1 σ τ ∧
        Holds M ctx [] none τ (S.test ctx e sense env).2 := by
  obtain ⟨st', part, hrun, hadds, hfalls, heff⟩ :=
    hc.decides hI target sense hl.wellScoped
  refine ⟨st', part, hrun, hadds, hfalls, fun σ env hh ↦ ?_⟩
  obtain ⟨τ, hbr, hfol⟩ := heff σ env (hl.holds_iff.mpr hh)
  exact ⟨τ, hbr, hl.holds_iff.mp hfol.holds⟩

/-- An expression over value types that stands alone. -/
private theorem run_supported (hI : Implements M S) (hs : Supported ctx [] e) (hl : NoLocals st.scopes) :
    ∃ st' part, (exprCode ctx e).run st = .ok () st' ∧ Extends st st' part ∧
      ∀ σ env, Holds M ctx [] none σ env → ∃ τ, M.Executes part σ τ ∧
        Holds M ctx [] none τ (S.eval ctx e env).2 := by
  -- a step that nobody reads is run as if its new value were read
  obtain ⟨e', hs', hrun', heval⟩ : ∃ e', Supported ctx [] e' ∧
      (exprCode ctx e).run = discard ((exprCode ctx e').value none) ∧
      ∀ env, (S.eval ctx e' env).2 = (S.eval ctx e env).2 := by
    cases hs with
    | @incDec n target increment first x one hty hn hone =>
      refine ⟨.incDec n target increment true, .incDec hty hn hone, rfl, fun env ↦ ?_⟩
      simp only [Meaning.eval]
      split <;> rfl
    | @literal n lit v hty hv => exact ⟨_, .literal hty hv, by cases lit <;> rfl, fun _ ↦ rfl⟩
    | name hn => exact ⟨_, .name hn, rfl, fun _ ↦ rfl⟩
    | constant _ _ hb => cases hb
    | @unary n op a hty hs => exact ⟨_, .unary hty hs, by cases op <;> rfl, fun _ ↦ rfl⟩
    | @binary n op a b hty ha hb =>
      refine ⟨_, .binary hty ha hb, ?_, fun _ ↦ rfl⟩
      simp only [exprCode, ExprCode.ofBinary]
      split <;> rfl
    | logical hty ha hb => exact ⟨_, .logical hty ha hb, rfl, fun _ ↦ rfl⟩
    | conditional hty hc ha hb => exact ⟨_, .conditional hty hc ha hb, rfl, fun _ ↦ rfl⟩
    | assign hty hn hs => exact ⟨_, .assign hty hn hs, rfl, fun _ ↦ rfl⟩
    | call hty hvoid hsym hkind hstatic hs =>
      exact ⟨_, .call hty hvoid hsym hkind hstatic hs, rfl, fun _ ↦ rfl⟩
  obtain ⟨v, st', part, hrun, hext, heff⟩ := run_value hI hs' hl
  refine ⟨st', part, by rw [hrun', run_discard hrun], hext, fun σ env hh ↦ ?_⟩
  obtain ⟨τ, hex, hh', -⟩ := heff σ env hh
  exact ⟨τ, hex, heval env ▸ hh'⟩

/-- An expression that stands alone. -/
theorem run_alone (hI : Implements M S) (hs : RunsAlone ctx e) (hl : NoLocals st.scopes) :
    ∃ st' part, (exprCode ctx e).run st = .ok () st' ∧ Extends st st' part ∧
      ∀ σ env, Holds M ctx [] none σ env → ∃ τ, M.Executes part σ τ ∧
        Holds M ctx [] none τ (S.eval ctx e env).2 := by
  cases hs with
  | value hs => exact run_supported hI hs hl
  | @call n callee args sym hvoid hsym hkind hstatic hs =>
    have hs' (a : Expr) (ha : a ∈ args) : Supported ctx st.scopes a := (hs a ha).inScopes _
    obtain ⟨st₀, hext₀, hcall⟩ := run_staticCall (n := n) hsym hkind hstatic args none st
    have hl₀ : NoLocals st₀.scopes := hext₀.scopes ▸ hl
    obtain ⟨ops, st₁, part₁, hrun₁, hext₁, -, heff₁⟩ :=
      does_arguments hs' (fun a ha ↦ (hs' a ha).faithful hI) hext₀.scopes hl₀.wellScoped
    obtain ⟨st₂, part₂, hrun₂, hext₂, hex₂⟩ := run_pushArguments M ops st₁
    obtain ⟨st₃, hrun₃, hext₃⟩ :=
      extends_emit .callVoid [.immediate (.method sym.index)] st₂ rfl
    refine ⟨st₃, _, ?_, hext₀.trans (hext₁.trans (hext₂.trans hext₃)), fun σ env hh ↦ ?_⟩
    · refine run_discard (a := .null) (hcall.trans ?_)
      rw [run_bind hrun₁, run_bind hrun₂, ExprCode.emitCall, hvoid, if_pos rfl,
        run_bind hrun₃]
      rfl
    · obtain ⟨τ, env', hex₁, hfol, rfl, hops⟩ := heff₁ σ env (hl₀.holds_iff.mpr hh)
      have hfol' : Follows M ctx st₀ none τ _ _ := (Follows.call hI hfol.holds sym.index ops).1
      refine ⟨_, hex₁.append ((hex₂ τ).append (.callVoid sym.index _)), ?_⟩
      rw [hops] at hfol'
      simp only [Meaning.eval, hsym]
      exact hl₀.holds_iff.mp hfol'.holds

/-! ### Where runs end -/

/-- The opcode at a position. -/
def opcodeAt? (code : List Statement) (position : Nat) : Option Opcode := (code[position]?).map (·.op)

/-- The label that `continue` goes to. -/
def continueLabel? (targets : List JumpTarget) : Option (String × Nat) :=
  targets.findSome? fun t ↦ t.continueLabel.map (·, t.depth)

/-- The places for an outcome: past the code, at a label of a construct around it, or at the statement
that ends the run. -/
def EndsAt (code : List Statement) (targets : List JumpTarget) (past : Nat) :
    Outcome → Nat → Prop
  | .next, p => p = past
  | .breakOut, p => ∃ t, targets.head? = some t ∧ labelAt? code p = some t.breakLabel
  | .continueLoop, p => ∃ l depth, continueLabel? targets = some (l, depth) ∧
      labelAt? code p = some l
  | .returned, p => opcodeAt? code p = some .ret
  | .trapped, p => opcodeAt? code p = some .trap
  | .unfinished, _ => True

/-- The least number of steps that a run with an outcome takes. -/
def leastSteps (n : Nat) : Outcome → Nat
  | .unfinished => n
  | _ => 0

/-- The machine comes to a place for the outcome, with a store that holds the environment. -/
def Lands (M : Machine V) (ctx : Context) (code : List Statement) (targets : List JumpTarget)
    (past n : Nat) (start : Config V) (r : Outcome × Env V) : Prop :=
  ∃ p τ, EndsAt code targets past r.1 p ∧ Holds M ctx [] none τ r.2 ∧
    M.Reaches code (leastSteps n r.1) start (p, τ)

/-- The labels of the constructs around stand in the code. -/
def Placed (targets : List JumpTarget) (code : List Statement) : Prop :=
  ∀ t ∈ targets, (∃ k, labelAt? code k = some t.breakLabel) ∧
    ∀ l, t.continueLabel = some l → ∃ k, labelAt? code k = some l

/-- Wherever a part stands in code with distinct labels, running it does what `run` says. -/
def Simulates (M : Machine V) (ctx : Context) (targets : List JumpTarget) (part : List Statement)
    (run : Nat → Env V → Outcome × Env V) : Prop :=
  ∀ code position, (labelsOf code).Nodup → CodeAt code position part → Placed targets code →
    ∀ n σ env, Holds M ctx [] none σ env →
      Lands M ctx code targets (position + part.length) n (position, σ) (run n env)

/-- A step, where it succeeds, adds a part to the code such that a property holds of the code before it,
the code after it and the part. -/
def Emits (act : Lower Unit) (P : List Statement → List Statement → List Statement → Prop) : Prop :=
  ∀ st u st', NoLocals st.scopes → act st = .ok u st' →
    ∃ part, Adds st st' part ∧ P st.code.toList st'.code.toList part

/-- A step adds code that does what `run` says, if control can be there. Control can go on after it if
there is a run that does. -/
def Performs (M : Machine V) (ctx : Context) (env : Surroundings) (act : Lower Unit)
    (run : Nat → Env V → Outcome × Env V) : Prop :=
  Emits act fun before after part ↦ ¬Closed before → Simulates M ctx env.targets part run ∧
    ∀ n e, (run n e).1 = .next → ¬Closed after

section Rules

variable {code : List Statement} {targets inner : List JumpTarget} {past past' n position : Nat}
  {c d : Config V} {r : Outcome × Env V} {σ τ : Store V} {env : Env V}

/-- A run lands where it lands after its first steps. -/
theorem Lands.after {k : Nat} (h : M.Reaches code k c d)
    (hl : Lands M ctx code targets past n d r) : Lands M ctx code targets past n c r := by
  obtain ⟨p, τ, hp, hh, hreach⟩ := hl
  exact ⟨p, τ, hp, hh, (h.trans hreach).weaken (Nat.le_add_left _ _)⟩

/-- A run that comes to the end of the code goes on there. -/
theorem Lands.next (hh : Holds M ctx [] none τ env) (h : M.Reaches code 0 c (past, τ)) :
    Lands M ctx code targets past n c (.next, env) :=
  ⟨past, τ, rfl, hh, h⟩

/-- What follows a part is reached where control goes on. -/
theorem Lands.andThen {f : Env V → Outcome × Env V} (h : Lands M ctx code targets past n c r)
    (hf : r.1 = .next → ∀ τ, Holds M ctx [] none τ r.2 →
      Lands M ctx code targets past' n (past, τ) (f r.2)) :
    Lands M ctx code targets past' n c (Outcome.andThen r f) := by
  obtain ⟨p, τ, hp, hh, hreach⟩ := h
  unfold Outcome.andThen
  split
  · next hr =>
    rw [hr] at hp hreach
    obtain rfl : p = past := hp
    exact (hf hr τ hh).after hreach
  · next hr =>
    refine ⟨p, τ, ?_, hh, hreach⟩
    revert hp hr
    cases r.1 <;> first | exact fun hp _ ↦ hp | exact fun _ hr ↦ absurd rfl hr

/-- Control that goes on past a part comes to another place. -/
theorem Lands.onward (h : Lands M ctx code targets past n c r)
    (hnext : r.1 = .next → ∀ τ, M.Reaches code 0 (past, τ) (past', τ)) :
    Lands M ctx code targets past' n c r := by
  have := h.andThen (f := fun e ↦ (.next, e)) fun hr τ hτ ↦ .next hτ (hnext hr τ)
  rwa [Outcome.andThen_next] at this

/-- Control comes back to the head of a loop, or leaves it, as the outcome of a round says. -/
private theorem Lands.goRound {i : Nat} {again : Env V → Outcome × Env V} (hi : i + 1 ≤ n)
    (hbody : Lands M ctx code inner past' n d r) (hhead : M.Reaches code 1 c d)
    (hback : r.1 = .next ∨ r.1 = .continueLoop → ∀ p τ, EndsAt code inner past' r.1 p →
      Holds M ctx [] none τ r.2 → ∃ d', M.Reaches code 0 (p, τ) d' ∧
        Lands M ctx code targets past i d' (again r.2))
    (hbreak : ∀ p τ, EndsAt code inner past' .breakOut p → M.Reaches code 0 (p, τ) (past, τ)) :
    Lands M ctx code targets past (i + 1) c (Meaning.goRound r again) := by
  obtain ⟨o, env⟩ := r
  obtain ⟨p, τ, hp, hh, hreach⟩ := hbody
  have hagain (ho : o = .next ∨ o = .continueLoop) :
      Lands M ctx code targets past (i + 1) c (again env) := by
    obtain ⟨d', hback, q, ρ, hq, hh', hrest⟩ := hback ho p τ hp hh
    have htotal := hhead.trans (((hreach.weaken (Nat.zero_le _)).andThen hback).trans hrest)
    refine ⟨q, ρ, hq, hh', htotal.weaken ?_⟩
    cases (again env).1 <;> simp only [leastSteps] <;> omega
  have hstay := hhead.trans hreach
  cases o with
  | next => exact hagain (.inl rfl)
  | continueLoop => exact hagain (.inr rfl)
  | breakOut => exact .next hh ((hstay.weaken (Nat.zero_le _)).andThen (hbreak p τ hp))
  | returned | trapped => exact ⟨p, τ, hp, hh, hstay.weaken (Nat.zero_le _)⟩
  | unfinished =>
    refine ⟨p, τ, hp, hh, hstay.weaken ?_⟩
    show i + 1 ≤ 1 + n
    omega

/-- A loop that tests before its body. Each round takes a step. -/
theorem lands_loop {test : Env V → Bool × Env V} {body : Env V → Outcome × Env V}
    {after : Env V → Env V} {head start : Nat}
    (htest : ∀ σ env, Holds M ctx [] none σ env → ∃ τ, Holds M ctx [] none τ (test env).2 ∧
      M.Reaches code 1 (head, σ) (if (test env).1 then start else past, τ))
    (hbody : ∀ e, (test e).1 = true → ∀ σ, Holds M ctx [] none σ (test e).2 →
      Lands M ctx code inner past' n (start, σ) (body (test e).2))
    (hback : ∀ e, (test e).1 = true → ∀ p τ, let r := body (test e).2
      r.1 = .next ∨ r.1 = .continueLoop → EndsAt code inner past' r.1 p →
      Holds M ctx [] none τ r.2 →
      ∃ τ', Holds M ctx [] none τ' (after r.2) ∧ M.Reaches code 0 (p, τ) (head, τ'))
    (hbreak : ∀ p τ, EndsAt code inner past' .breakOut p → M.Reaches code 0 (p, τ) (past, τ)) :
    ∀ i ≤ n, ∀ σ env, Holds M ctx [] none σ env →
      Lands M ctx code targets past i (head, σ) (Meaning.loop test body after i env) := by
  intro i
  induction i with
  | zero => exact fun _ σ env hh ↦ ⟨head, σ, trivial, hh, .refl _⟩
  | succ i ih =>
    intro hi σ env hh
    obtain ⟨τ, hh', hreach⟩ := htest σ env hh
    rw [Meaning.loop]
    cases hgo : (test env).1 with
    | false =>
      rw [hgo] at hreach
      exact .next hh' (hreach.weaken (Nat.zero_le 1))
    | true =>
      rw [hgo] at hreach
      refine .goRound hi (hbody env hgo τ hh') hreach ?_ hbreak
      intro ho p ρ hp hρ
      obtain ⟨ρ', hρ', hback⟩ := hback env hgo p ρ ho hp hρ
      exact ⟨_, hback, ih (Nat.le_of_succ_le hi) ρ' _ hρ'⟩

/-- A loop that tests after its body. -/
theorem lands_loopBack {test : Env V → Bool × Env V} {body : Env V → Outcome × Env V}
    {head start : Nat} (hhead : ∀ σ, M.Reaches code 1 (head, σ) (start, σ))
    (hbody : ∀ σ env, Holds M ctx [] none σ env →
      Lands M ctx code inner past' n (start, σ) (body env))
    (hback : ∀ e p τ, (body e).1 = .next ∨ (body e).1 = .continueLoop →
      EndsAt code inner past' (body e).1 p → Holds M ctx [] none τ (body e).2 →
      ∃ τ', Holds M ctx [] none τ' (test (body e).2).2 ∧
        M.Reaches code 0 (p, τ) (if (test (body e).2).1 then head else past, τ'))
    (hbreak : ∀ p τ, EndsAt code inner past' .breakOut p → M.Reaches code 0 (p, τ) (past, τ)) :
    ∀ i ≤ n, ∀ σ env, Holds M ctx [] none σ env →
      Lands M ctx code targets past i (head, σ) (Meaning.loopBack body test i env) := by
  intro i
  induction i with
  | zero => exact fun _ σ env hh ↦ ⟨head, σ, trivial, hh, .refl _⟩
  | succ i ih =>
    intro hi σ env hh
    rw [Meaning.loopBack]
    refine .goRound hi (hbody σ env hh) (hhead σ) ?_ hbreak
    intro ho p ρ hp hρ
    obtain ⟨ρ', hρ', hback⟩ := hback env p ρ ho hp hρ
    refine ⟨_, hback, ?_⟩
    simp only
    split
    · exact ih (Nat.le_of_succ_le hi) ρ' _ hρ'
    · exact .next hρ' (.refl _)

end Rules

/-! ### Steps -/

section Steps

variable {st' : State} {u : Unit} {l : String}

/-- Control can run past a label that has been emitted. -/
theorem extends_of_emitLabel (h : emitLabel l st = .ok u st') : Extends st st' [.label l] := by
  obtain ⟨st₁, hrun, hext⟩ := extends_emitLabel l st
  cases hrun.symm.trans h
  exact hext

/-- Code that ends in a label is not closed. -/
theorem not_closed_of_emitLabel (h : emitLabel l st = .ok u st') : ¬Closed st'.code.toList := by
  rw [(extends_of_emitLabel h).code]
  exact not_closed_concat rfl

/-- A jump that has been emitted is one statement. -/
theorem adds_of_emitJump (h : emitJump l st = .ok u st') : Adds st st' [.jump l] := by
  obtain ⟨st₁, hrun, hadds⟩ := adds_emitJump l st
  cases hrun.symm.trans h
  exact hadds

/-- A jump is left out where control cannot be. -/
theorem adds_of_emitJumpIfReachable (h : emitJumpIfReachable l st = .ok u st') :
    ∃ part, Adds st st' part ∧ (¬Closed st.code.toList → part = [.jump l]) := by
  obtain ⟨r, st₁, hreach, hrun⟩ := exists_of_run_bind h
  cases hreach
  rw [← Array.getLast?_toList] at hrun
  split at hrun
  · exact ⟨_, adds_of_emitJump hrun, fun _ ↦ rfl⟩
  · next hclosed =>
    cases hrun
    rw [Bool.not_eq_true, Bool.not_eq_false'] at hclosed
    exact ⟨[], (Extends.refl _).toAdds, fun hopen ↦ absurd hclosed hopen⟩

/-- Inside a construct that can be left. -/
def Inside (env inner : Surroundings) (breakLabel : String) (continueLabel : Option String) : Prop :=
  ∃ depth, inner.targets = ⟨breakLabel, continueLabel, depth⟩ :: env.targets

/-- Entering a construct puts its labels in front of those around it. -/
theorem inside_of_enter {env inner : Surroundings} {breakLabel : String}
    {continueLabel : Option String} (h : enter env breakLabel continueLabel st = .ok inner st') :
    st = st' ∧ Inside env inner breakLabel continueLabel := by
  cases h
  exact ⟨rfl, _, rfl⟩

/-- Control can run past code with a part added if it can run past each. -/
theorem Adds.not_closed {part : List Statement} (h : Adds st st' part)
    (hst : ¬Closed st.code.toList) (hpart : ¬Closed part) : ¬Closed st'.code.toList := by
  rw [h.code]
  exact not_closed_append hst hpart

end Steps

/-! ### Rules -/

section Emits

variable {P : List Statement → List Statement → List Statement → Prop}

/-- The number of a construct is not part of its code. -/
theorem Emits.numbered {f : Nat → Lower Unit} (h : ∀ k, Emits (f k) P) :
    Emits (newConstruct >>= f) P := by
  intro st u st' hl hrun
  obtain ⟨k, st₀, hnew, hrun⟩ := exists_of_run_bind hrun
  cases hnew
  obtain ⟨part, hadds, hpart⟩ :=
    h _ { st with nextConstruct := st.nextConstruct + 1 } u st' hl hrun
  exact ⟨part, ⟨⟨hadds.scopes, hadds.names, hadds.registers⟩, hadds.code⟩, hpart⟩

/-- A scope without locals has nothing to clear. -/
theorem Emits.inScope {act : Lower Unit} (h : Emits act P) : Emits (inScope ctx act) P := by
  intro st u st' hl hrun
  obtain ⟨_, st₁, hpush, hrun₁⟩ := exists_of_run_bind hrun
  cases hpush
  obtain ⟨_, st₂, hact, hpop⟩ := exists_of_run_bind hrun₁
  obtain ⟨part, hadds, hpart⟩ := h _ _ st₂ hl.push hact
  have hst' : st' = { st₂ with scopes := st.scopes } := by
    obtain ⟨_, st₃, hget, hpop⟩ := exists_of_run_bind hpop
    cases hget
    simp only [hadds.scopes] at hpop
    obtain ⟨_, st₄, hmodify, hpop⟩ := exists_of_run_bind hpop
    cases hmodify
    obtain ⟨r, st₅, hreach, hpop⟩ := exists_of_run_bind hpop
    cases hreach
    split at hpop <;> cases hpop <;> rfl
  subst hst'
  exact ⟨part, ⟨⟨rfl, hadds.names, hadds.registers⟩, hadds.code⟩, hpart⟩

end Emits

section Performs

variable {env : Surroundings} {act act' : Lower Unit} {run run' : Nat → Env V → Outcome × Env V}

/-- Doing nothing goes on. -/
theorem Performs.pure : Performs M ctx env (Pure.pure ()) fun _ e ↦ (.next, e) := by
  intro st u st' _ hrun
  cases hrun
  refine ⟨[], (Extends.refl st).toAdds, fun hopen ↦ ⟨?_, fun _ _ _ ↦ hopen⟩⟩
  intro code position _ _ _ n σ e hh
  exact .next hh (.refl _)

/-- A step whose code runs to its end. -/
theorem Performs.ofRun {f : Env V → Env V} (h : ∀ st, NoLocals st.scopes →
    ∃ st' part, act st = .ok () st' ∧ Extends st st' part ∧ ∀ σ e, Holds M ctx [] none σ e →
      ∃ τ, M.Executes part σ τ ∧ Holds M ctx [] none τ (f e)) :
    Performs M ctx env act fun _ e ↦ (.next, f e) := by
  intro st u st' hl hrun
  obtain ⟨st₁, part, hrun₁, hext, heff⟩ := h st hl
  cases hrun₁.symm.trans hrun
  refine ⟨part, hext.toAdds, fun hopen ↦ ⟨?_, fun _ _ _ ↦ hext.not_closed hopen hext.falls⟩⟩
  intro code position hd hat _ n σ e hh
  obtain ⟨τ, hex, hh'⟩ := heff σ e hh
  exact .next hh' (hex code position hd hat)

/-- One step after another performs what both do, one after the other. -/
theorem Performs.seq (h : Performs M ctx env act run) (h' : Performs M ctx env act' run') :
    Performs M ctx env (act >>= fun _ ↦ act') fun n e ↦ Outcome.andThen (run n e) (run' n) := by
  intro st u st' hl hrun
  obtain ⟨_, st₁, hrun₁, hrun₂⟩ := exists_of_run_bind hrun
  obtain ⟨part₁, hadds₁, hsim₁⟩ := h st _ st₁ hl hrun₁
  obtain ⟨part₂, hadds₂, hsim₂⟩ := h' st₁ _ st' (hadds₁.scopes ▸ hl) hrun₂
  refine ⟨part₁ ++ part₂, hadds₁.trans hadds₂, fun hopen ↦ ?_⟩
  obtain ⟨hsim₁, hnext₁⟩ := hsim₁ hopen
  constructor
  · intro code position hd hat hp n σ e hh
    refine (hsim₁ code position hd hat.left hp n σ e hh).andThen fun hnext τ hτ ↦ ?_
    rw [List.length_append, ← Nat.add_assoc]
    exact (hsim₂ (hnext₁ n e hnext)).1 code _ hd hat.right hp n τ _ hτ
  · intro n e hnext
    simp only [Outcome.andThen] at hnext
    split at hnext
    · next hfirst => exact (hsim₂ (hnext₁ n e hfirst)).2 n _ hnext
    · next hfirst => exact absurd hnext hfirst

end Performs

end MethodCompiler.Lowering
