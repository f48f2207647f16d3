import MethodCompiler.Proofs.StatementCode

/-!
# The code of choices, loops and switches

Each construct branches on its condition, enters its parts where the outcome of the test says, and goes
on behind its end. `break` and `continue` go to its labels.
-/

namespace MethodCompiler.Lowering

variable {V : Type} {M : Machine V} {S : Meaning V} {ctx : Context} {env : Surroundings}
  {cond : Expr} {act act' : Lower Unit} {run run' : Nat → Env V → Outcome × Env V}

/-! ### Choices -/

/-- A branch goes past the code of an `if` unless its condition holds. -/
theorem performs_ifThen (hI : Implements M S) (hc : Condition ctx cond)
    (h : Performs M ctx env act run) (l : String) :
    Performs M ctx env (do
      (exprCode ctx cond).branch l false
      act
      emitLabel l) fun n e ↦
        let r := S.test ctx cond true e
        if r.1 then run n r.2 else (.next, r.2) := by
  intro st u st' hl hrun
  obtain ⟨_, st₁, hbranch, hrun₁⟩ := exists_of_run_bind hrun
  obtain ⟨_, st₂, hact, hlabel⟩ := exists_of_run_bind hrun₁
  obtain ⟨_, part₁, hbranch', hadds₁, hfalls, heff⟩ := run_branch hI hc hl l false
  cases hbranch'.symm.trans hbranch
  obtain ⟨part₂, hadds₂, hsim⟩ := h st₁ _ st₂ (hadds₁.scopes ▸ hl) hact
  have hext₃ := extends_of_emitLabel hlabel
  refine ⟨_, hadds₁.trans (hadds₂.trans hext₃.toAdds),
    fun hopen ↦ ⟨?_, fun _ _ _ ↦ not_closed_of_emitLabel hlabel⟩⟩
  intro code position hd hat hp n σ e hh
  have hend : CodeAt code (position + part₁.length + part₂.length) [.label l] := hat.right.right
  have hpast (υ : Store V) := Machine.Executes.label (M := M) l υ code _ hd hend
  obtain ⟨τ, hbr, hτ⟩ := heff σ e hh
  have hgo := hbr code position _ hd hat.left hend.labelAt
  have hfalls := hfalls e
  simp only [Meaning.test_false] at hgo hτ hfalls
  simp only [List.length_append, ← Nat.add_assoc]
  cases htest : (S.test ctx cond true e).1 with
  | false =>
    rw [htest] at hgo
    exact .next hτ (hgo.andThen (hpast τ))
  | true =>
    rw [htest] at hgo hfalls
    have hsim := (hsim (hadds₁.not_closed hopen (hfalls rfl))).1
    have hthen := hsim code _ hd hat.right.left hp n τ _ hτ
    exact (hthen.onward fun _ ↦ hpast).after hgo

/-- A branch goes to the second part of an `if` unless its condition holds, and a jump from the first past
it. -/
theorem performs_ifElse (hI : Implements M S) (hc : Condition ctx cond)
    (h : Performs M ctx env act run) (h' : Performs M ctx env act' run') (other done : String) :
    Performs M ctx env (do
      (exprCode ctx cond).branch other false
      act
      emitJumpIfReachable done
      emitLabel other
      act'
      emitLabel done) fun n e ↦
        let r := S.test ctx cond true e
        if r.1 then run n r.2 else run' n r.2 := by
  intro st u st' hl hrun
  obtain ⟨_, st₁, hbranch, hrun₁⟩ := exists_of_run_bind hrun
  obtain ⟨_, st₂, hact, hrun₂⟩ := exists_of_run_bind hrun₁
  obtain ⟨_, st₃, hjump, hrun₃⟩ := exists_of_run_bind hrun₂
  obtain ⟨_, st₄, hother, hrun₄⟩ := exists_of_run_bind hrun₃
  obtain ⟨_, st₅, hact', hdone⟩ := exists_of_run_bind hrun₄
  obtain ⟨_, part₁, hbranch', hadds₁, hfalls, heff⟩ := run_branch hI hc hl other false
  cases hbranch'.symm.trans hbranch
  have hl₁ : NoLocals st₁.scopes := hadds₁.scopes ▸ hl
  obtain ⟨part₂, hadds₂, hsim₂⟩ := h st₁ _ st₂ hl₁ hact
  obtain ⟨part₃, hadds₃, hpart₃⟩ := adds_of_emitJumpIfReachable hjump
  have hext₄ := extends_of_emitLabel hother
  have hl₄ : NoLocals st₄.scopes := by
    rw [hext₄.scopes, hadds₃.scopes, hadds₂.scopes]
    exact hl₁
  obtain ⟨part₅, hadds₅, hsim₅⟩ := h' st₄ _ st₅ hl₄ hact'
  obtain ⟨hsim₅, -⟩ := hsim₅ (not_closed_of_emitLabel hother)
  have hext₆ := extends_of_emitLabel hdone
  refine ⟨_, hadds₁.trans (hadds₂.trans (hadds₃.trans (hext₄.toAdds.trans (hadds₅.trans
    hext₆.toAdds)))), fun hopen ↦ ⟨?_, fun _ _ _ ↦ not_closed_of_emitLabel hdone⟩⟩
  intro code position hd hat hp n σ e hh
  have hatOther : CodeAt code (position + part₁.length + part₂.length + part₃.length)
      (Statement.label other :: (part₅ ++ [Statement.label done])) := hat.right.right.right
  have hend : CodeAt code (position + part₁.length + part₂.length + part₃.length + 1 + part₅.length)
      [.label done] := hatOther.tail.right
  have hpast (υ : Store V) := Machine.Executes.label (M := M) done υ code _ hd hend
  obtain ⟨τ, hbr, hτ⟩ := heff σ e hh
  have hgo := hbr code position _ hd hat.left hatOther.labelAt
  have hfalls := hfalls e
  simp only [Meaning.test_false] at hgo hτ hfalls
  simp only [List.length_append, List.length_singleton, ← Nat.add_assoc]
  cases htest : (S.test ctx cond true e).1 with
  | false =>
    rw [htest] at hgo
    have helse := hsim₅ code _ hd hatOther.tail.left hp n τ _ hτ
    have hlabel := Machine.Executes.label (M := M) other τ code _ hd hatOther.single
    exact ((helse.onward fun _ ↦ hpast).after hlabel).after hgo
  | true =>
    rw [htest] at hgo hfalls
    obtain ⟨hsim₂, hnext₂⟩ := hsim₂ (hadds₁.not_closed hopen (hfalls rfl))
    have hthen := hsim₂ code _ hd hat.right.left hp n τ _ hτ
    refine (hthen.onward fun hnext υ ↦ ?_).after hgo
    -- the jump is there, since control can go on
    have hjumpAt := hat.right.right.left
    rw [hpart₃ (hnext₂ n _ hnext)] at hjumpAt
    exact (Machine.Branches.jump done υ code _ _ hd hjumpAt hend.labelAt).andThen (hpast υ)

/-! ### Loops -/

section Inside

variable {inner : Surroundings} {code : List Statement} {breakLabel l : String}
  {continueLabel : Option String} {past p k : Nat}

/-- The labels of a construct are placed inside it where they are defined. -/
theorem Inside.placed (h : Inside env inner breakLabel continueLabel) (hp : Placed env.targets code)
    (hb : labelAt? code k = some breakLabel)
    (hc : ∀ l, continueLabel = some l → ∃ k, labelAt? code k = some l) :
    Placed inner.targets code := by
  obtain ⟨depth, h⟩ := h
  rw [h]
  intro t ht
  rcases List.mem_cons.mp ht with rfl | ht
  · exact ⟨⟨k, hb⟩, hc⟩
  · exact hp t ht

/-- `break` goes to the label of the construct. -/
theorem Inside.endsAt_break (h : Inside env inner breakLabel continueLabel)
    (hd : (labelsOf code).Nodup) (hk : labelAt? code k = some breakLabel)
    (hp : EndsAt code inner.targets past .breakOut p) : p = k := by
  obtain ⟨depth, h⟩ := h
  obtain ⟨t, ht, hl⟩ := hp
  rw [h] at ht
  cases ht
  exact labelAt?_inj hd hl hk

/-- `continue` goes to the label of the loop. -/
private theorem Inside.endsAt_continue (h : Inside env inner breakLabel (some l))
    (hd : (labelsOf code).Nodup) (hk : labelAt? code k = some l)
    (hp : EndsAt code inner.targets past .continueLoop p) : p = k := by
  obtain ⟨depth, h⟩ := h
  obtain ⟨l', _, ht, hl⟩ := hp
  rw [h] at ht
  cases ht
  exact labelAt?_inj hd hl hk

end Inside

/-- A test that a loop makes before each round: it goes to a label where the loop ends. -/
def Tests (M : Machine V) (ctx : Context) (act : Lower Unit) (done : String)
    (test : Env V → Bool × Env V) : Prop :=
  ∀ st, NoLocals st.scopes → ∃ st' part, act st = .ok () st' ∧ Adds st st' part ∧
    (∀ e, (test e).1 = true → ¬Closed part) ∧
    ∀ σ e, Holds M ctx [] none σ e → ∃ τ, Holds M ctx [] none τ (test e).2 ∧
      M.Branches part done (!(test e).1) σ τ

/-- The branch on a condition tests it. -/
theorem tests_branch (hI : Implements M S) (hc : Condition ctx cond) (done : String) :
    Tests M ctx ((exprCode ctx cond).branch done false) done (S.test ctx cond true) := by
  intro st hl
  obtain ⟨st', part, hrun, hadds, hfalls, heff⟩ := run_branch hI hc hl done false
  refine ⟨st', part, hrun, hadds, fun e he ↦ hfalls e ?_, fun σ e hh ↦ ?_⟩
  · rw [Meaning.test_false, he]
    rfl
  · obtain ⟨τ, hbr, hτ⟩ := heff σ e hh
    rw [Meaning.test_false] at hbr hτ
    exact ⟨τ, hτ, hbr⟩

/-- Without a condition no test is made. -/
theorem tests_nothing (done : String) :
    Tests M ctx (pure ()) done fun e ↦ (true, e) := by
  intro st _
  refine ⟨st, [], rfl, (Extends.refl st).toAdds, fun _ _ ↦ not_closed_nil, fun σ e hh ↦ ?_⟩
  exact ⟨σ, hh, .fall done σ⟩

/-- What stands between the body of a loop and its end takes control back to the head, both from the end
of the body and from the label that `continue` goes to. -/
def GoesBack (M : Machine V) (ctx : Context) (act : Lower Unit) (head again : String)
    (after : Env V → Env V) : Prop :=
  Emits act fun before _ part ↦
    ∀ code position k, (labelsOf code).Nodup → CodeAt code position part →
      labelAt? code k = some head →
      ∃ entry, labelAt? code entry = some again ∧ ∀ p σ e, Holds M ctx [] none σ e →
        p = entry ∨ p = position ∧ ¬Closed before →
        ∃ τ, Holds M ctx [] none τ (after e) ∧ M.Reaches code 0 (p, σ) (k, τ)

/-- A jump takes control back where it can be; `continue` goes to the head itself. -/
theorem goesBack_jump (head : String) :
    GoesBack M ctx (emitJumpIfReachable head) head head id := by
  intro st u st' _ hrun
  obtain ⟨part, hadds, hpart⟩ := adds_of_emitJumpIfReachable hrun
  refine ⟨part, hadds, fun code position k hd hat hk ↦ ⟨k, hk, fun p σ e hh hp ↦ ⟨σ, hh, ?_⟩⟩⟩
  rcases hp with rfl | ⟨rfl, hopen⟩
  · exact .refl _
  · rw [hpart hopen] at hat
    exact Machine.Branches.jump head σ code _ _ hd hat hk

/-- A loop that tests before its body. -/
theorem performs_loop {head again done : String} {test back : Lower Unit}
    {f : Env V → Bool × Env V} {after : Env V → Env V} {body : Surroundings → Lower Unit}
    (htest : Tests M ctx test done f) (hback : GoesBack M ctx back head again after)
    (h : ∀ inner, Inside env inner done (some again) → Performs M ctx inner (body inner) run) :
    Performs M ctx env (do
      emitLabel head
      test
      body (← enter env done (some again))
      back
      emitLabel done) fun n e ↦ Meaning.loop f (run n) after n e := by
  intro st u st' hl hrun
  obtain ⟨_, st₁, hlabel, hrun₁⟩ := exists_of_run_bind hrun
  obtain ⟨_, st₂, hrun₂, hrun₃⟩ := exists_of_run_bind hrun₁
  obtain ⟨inner, _, henter, hrun₄⟩ := exists_of_run_bind hrun₃
  obtain ⟨rfl, hinner⟩ := inside_of_enter henter
  obtain ⟨_, st₃, hbody, hrun₅⟩ := exists_of_run_bind hrun₄
  obtain ⟨_, st₄, hrun₆, hdone⟩ := exists_of_run_bind hrun₅
  have hext₁ := extends_of_emitLabel hlabel
  have hl₁ : NoLocals st₁.scopes := hext₁.scopes ▸ hl
  obtain ⟨_, part₂, htest', hadds₂, hfalls, heff⟩ := htest st₁ hl₁
  cases htest'.symm.trans hrun₂
  have hl₂ : NoLocals st₂.scopes := hadds₂.scopes ▸ hl₁
  obtain ⟨part₃, hadds₃, hsim⟩ := h inner hinner st₂ _ st₃ hl₂ hbody
  obtain ⟨part₄, hadds₄, hback⟩ := hback st₃ _ st₄ (hadds₃.scopes ▸ hl₂) hrun₆
  have hext₅ := extends_of_emitLabel hdone
  refine ⟨_, hext₁.toAdds.trans (hadds₂.trans (hadds₃.trans (hadds₄.trans hext₅.toAdds))),
    fun _ ↦ ⟨?_, fun _ _ _ ↦ not_closed_of_emitLabel hdone⟩⟩
  intro code position hd hat hp n σ e hh
  have hhead : CodeAt code position [.label head] := hat.left
  have hend : CodeAt code (position + 1 + part₂.length + part₃.length + part₄.length)
      [.label done] := hat.right.right.right.right
  have hpast (υ : Store V) := Machine.Executes.label (M := M) done υ code _ hd hend
  obtain ⟨entry, hentry, hback⟩ :=
    hback code _ position hd hat.right.right.right.left hhead.labelAt
  have hplaced := hinner.placed hp hend.labelAt fun l hl ↦ ⟨entry, hl ▸ hentry⟩
  have hopen (e : Env V) (he : (f e).1 = true) : ¬Closed st₂.code.toList :=
    hadds₂.not_closed (not_closed_of_emitLabel hlabel) (hfalls e he)
  have hround (υ : Store V) (e : Env V) (hυ : Holds M ctx [] none υ e) :
      ∃ τ, Holds M ctx [] none τ (f e).2 ∧ M.Reaches code 1 (position, υ)
        (if (f e).1 then position + 1 + part₂.length else
          position + 1 + part₂.length + part₃.length + part₄.length + 1, τ) := by
    obtain ⟨τ, hτ, hbr⟩ := heff υ e hυ
    have hgo := (Machine.Reaches.label hhead υ).trans (hbr code _ _ hd hat.right.left hend.labelAt)
    refine ⟨τ, hτ, ?_⟩
    cases he : (f e).1 with
    | true =>
      rw [he] at hgo
      exact hgo
    | false =>
      rw [he] at hgo
      exact hgo.trans (hpast τ)
  have hrounds (e : Env V) (he : (f e).1 = true) (υ : Store V)
      (hυ : Holds M ctx [] none υ (f e).2) :=
    (hsim (hopen e he)).1 code _ hd hat.right.right.left hplaced n υ _ hυ
  simp only [List.length_append, List.length_singleton, ← Nat.add_assoc]
  refine lands_loop hround hrounds ?_ ?_ n (Nat.le_refl n) σ e hh
  · intro e he p υ r ho hp hυ
    apply hback p υ _ hυ
    rcases ho with ho | ho <;> rw [ho] at hp
    · exact .inr ⟨hp, (hsim (hopen e he)).2 n _ ho⟩
    · exact .inl (hinner.endsAt_continue hd hentry hp)
  · intro p υ hp
    rw [hinner.endsAt_break hd hend.labelAt hp]
    exact hpast υ

/-- Expressions one after the other. -/
private theorem run_runAll (hI : Implements M S) {es : List Expr} (hs : ∀ e ∈ es, RunsAlone ctx e)
    {st : State} (hl : NoLocals st.scopes) :
    ∃ st' part, runAll ctx es st = .ok () st' ∧ Extends st st' part ∧
      ∀ σ e, Holds M ctx [] none σ e → ∃ τ, M.Executes part σ τ ∧
        Holds M ctx [] none τ (S.evalAll ctx es e).2 := by
  induction es generalizing st with
  | nil => exact ⟨st, [], rfl, .refl st, fun σ e hh ↦ ⟨σ, .nil σ, hh⟩⟩
  | cons a rest ih =>
    obtain ⟨st₁, part₁, hrun₁, hext₁, heff₁⟩ := run_alone hI (hs a List.mem_cons_self) hl
    have hrest (e : Expr) (he : e ∈ rest) : RunsAlone ctx e := hs e (List.mem_cons_of_mem a he)
    obtain ⟨st₂, part₂, hrun₂, hext₂, heff₂⟩ := ih hrest (hext₁.scopes ▸ hl)
    refine ⟨st₂, _, by rw [runAll, run_bind hrun₁, hrun₂], hext₁.trans hext₂, fun σ e hh ↦ ?_⟩
    obtain ⟨τ, hex₁, hτ⟩ := heff₁ σ e hh
    obtain ⟨ρ, hex₂, hρ⟩ := heff₂ τ _ hτ
    exact ⟨ρ, hex₁.append hex₂, hρ⟩

/-- The steps of a loop run before control goes back. -/
theorem goesBack_steps (hI : Implements M S) {steps : List Expr}
    (hs : ∀ e ∈ steps, RunsAlone ctx e) (head again : String) :
    GoesBack M ctx (do
      emitLabel again
      runAll ctx steps
      emitJump head) head again fun e ↦ (S.evalAll ctx steps e).2 := by
  intro st u st' hl hrun
  obtain ⟨_, st₁, hlabel, hrun₁⟩ := exists_of_run_bind hrun
  obtain ⟨_, st₂, hsteps, hjump⟩ := exists_of_run_bind hrun₁
  have hext₁ := extends_of_emitLabel hlabel
  obtain ⟨_, part₂, hsteps', hext₂, heff⟩ := run_runAll hI hs (hext₁.scopes ▸ hl)
  cases hsteps'.symm.trans hsteps
  refine ⟨_, hext₁.toAdds.trans (hext₂.toAdds.trans (adds_of_emitJump hjump)), ?_⟩
  intro code position k hd hat hk
  have hlabelAt : CodeAt code position [.label again] := hat.left
  refine ⟨position, hlabelAt.labelAt, fun p σ e hh hp ↦ ?_⟩
  obtain rfl : p = position := hp.elim id And.left
  obtain ⟨τ, hex, hτ⟩ := heff σ e hh
  refine ⟨τ, hτ, ?_⟩
  have hstart := Machine.Executes.label (M := M) again σ code p hd hlabelAt
  have hrest := hex code (p + 1) hd hat.right.left
  exact (hstart.andThen hrest).andThen
    (Machine.Branches.jump head τ code _ _ hd hat.right.right hk)

/-- A loop that tests after its body. -/
theorem performs_doWhile (hI : Implements M S) (hc : Condition ctx cond)
    {head again done : String} {body : Surroundings → Lower Unit}
    (h : ∀ inner, Inside env inner done (some again) → Performs M ctx inner (body inner) run) :
    Performs M ctx env (do
      emitLabel head
      body (← enter env done (some again))
      emitLabel again
      (exprCode ctx cond).branch head true
      emitLabel done) fun n e ↦ Meaning.loopBack (run n) (S.test ctx cond true) n e := by
  intro st u st' hl hrun
  obtain ⟨_, st₁, hlabel, hrun₁⟩ := exists_of_run_bind hrun
  obtain ⟨inner, _, henter, hrun₂⟩ := exists_of_run_bind hrun₁
  obtain ⟨rfl, hinner⟩ := inside_of_enter henter
  obtain ⟨_, st₂, hbody, hrun₃⟩ := exists_of_run_bind hrun₂
  obtain ⟨_, st₃, hagain, hrun₄⟩ := exists_of_run_bind hrun₃
  obtain ⟨_, st₄, hbranch, hdone⟩ := exists_of_run_bind hrun₄
  have hext₁ := extends_of_emitLabel hlabel
  have hl₁ : NoLocals st₁.scopes := hext₁.scopes ▸ hl
  obtain ⟨part₂, hadds₂, hsim⟩ := h inner hinner st₁ _ st₂ hl₁ hbody
  obtain ⟨hsim, -⟩ := hsim (not_closed_of_emitLabel hlabel)
  have hext₃ := extends_of_emitLabel hagain
  have hl₃ : NoLocals st₃.scopes := by
    rw [hext₃.scopes, hadds₂.scopes]
    exact hl₁
  obtain ⟨_, part₄, hbranch', hadds₄, -, heff⟩ := run_branch hI hc hl₃ head true
  cases hbranch'.symm.trans hbranch
  have hext₅ := extends_of_emitLabel hdone
  refine ⟨_, hext₁.toAdds.trans (hadds₂.trans (hext₃.toAdds.trans (hadds₄.trans hext₅.toAdds))),
    fun _ ↦ ⟨?_, fun _ _ _ ↦ not_closed_of_emitLabel hdone⟩⟩
  intro code position hd hat hp n σ e hh
  have hhead : CodeAt code position [.label head] := hat.left
  have hentry : CodeAt code (position + 1 + part₂.length) [.label again] := hat.right.right.left
  have hend : CodeAt code (position + 1 + part₂.length + 1 + part₄.length) [.label done] :=
    hat.right.right.right.right
  have hpast (υ : Store V) := Machine.Executes.label (M := M) done υ code _ hd hend
  have hplaced := hinner.placed hp hend.labelAt fun l hl ↦ ⟨_, hl ▸ hentry.labelAt⟩
  simp only [List.length_append, List.length_singleton, ← Nat.add_assoc]
  refine lands_loopBack (Machine.Reaches.label hhead)
    (hsim code _ hd hat.right.left hplaced n) ?_ ?_ n (Nat.le_refl n) σ e hh
  · intro e p υ ho hp hυ
    obtain rfl : p = position + 1 + part₂.length := by
      rcases ho with ho | ho <;> rw [ho] at hp
      · exact hp
      · exact hinner.endsAt_continue hd hentry.labelAt hp
    obtain ⟨τ, hbr, hτ⟩ := heff υ _ hυ
    refine ⟨τ, hτ, ?_⟩
    have hgo := (Machine.Executes.label (M := M) again υ code _ hd hentry).andThen
      (hbr code _ _ hd hat.right.right.right.left hhead.labelAt)
    split at hgo <;> split
    · exact hgo
    · contradiction
    · contradiction
    · exact hgo.andThen (hpast τ)
  · intro p υ hp
    rw [hinner.endsAt_break hd hend.labelAt hp]
    exact hpast υ

end MethodCompiler.Lowering
