import MethodCompiler.Proofs.ExpressionCode

/-!
# The code of assignments and calls

Assignments write the cell of a variable, in place where it is a register. The value of a step is
copied away before the variable changes. Arguments are computed and kept before the first is pushed.
-/

namespace MethodCompiler.Lowering

variable {V : Type} {M : Machine V} {S : Meaning V} {ctx : Context} {scopes : List Scope} {e : Expr}
  {st : State} {into : Option Operand} {x : Variable} {c : Cell} {ty : Ty} {dst : Operand}

/-! ### Writing variables -/

/-- Compute a new value of a variable in place. -/
private theorem does_update {op : Opcode} (hop : op.isComputation = true) (operands : List Operand)
    (hx : cellOf ctx st.scopes x = some c) (hc : dst.cell? = some c) :
    Does M ctx st none (emit op (dst :: operands)) (fun _ _ ↦ True) fun _ σ env τ env' ↦
      let a := M.compute op (operands.map (M.read σ))
      env' = env.set x a ∧ M.read τ dst = a := by
  intro hw
  obtain ⟨st', hrun, hext⟩ :=
    extends_emit op (dst :: operands) st (Opcode.not_exit_of_isComputation hop)
  refine ⟨(), st', _, hrun, hext, trivial, ?_⟩
  intro σ env hh
  exact ⟨_, _, .compute hop dst operands σ,
    (Follows.refl hh).write_variable hw hx hc (by simp [intoCell]), rfl,
    Machine.read_write_self hc⟩

/-- Store a computed value in a variable. -/
private theorem does_store (hty : ty.isReference = false) (hx : cellOf ctx st.scopes x = some c)
    (hc : dst.cell? = some c) (v : Operand) :
    Does M ctx st none (copyInto dst v ty) (fun _ _ ↦ True) fun _ σ env τ env' ↦
      env' = env.set x (M.read σ v) ∧ M.read τ v = M.read σ v := by
  intro hw
  obtain ⟨st', part, hrun, hext, hex⟩ := run_copyInto (M := M) hty hc v st
  refine ⟨(), st', part, hrun, hext, trivial, ?_⟩
  intro σ env hh
  exact ⟨_, _, hex σ, (Follows.refl hh).write_variable hw hx hc (by simp [intoCell]), rfl,
    Machine.read_write_read⟩

/-- An operand that keeps its value in any run. -/
def Temporary (M : Machine V) (ctx : Context) (st : State) (v : Operand) : Prop :=
  ∀ {σ τ : Store V} {env : Env V}, Follows M ctx st none σ τ env → M.read τ v = M.read σ v

/-- Copy an operand to a new register. -/
private theorem does_copy (hty : ty.isReference = false) (v : Operand) :
    Does M ctx st none (ExprCode.apply .move [v] none ty)
      (fun st' d ↦ Usable st' d ∧ Temporary M ctx st' d) fun d σ env τ env' ↦
      M.read τ d = M.read σ v ∧ env' = env := by
  intro hw
  obtain ⟨st₁, hrun₁, hext₁, hlt⟩ := extends_newRegister ty st
  obtain ⟨st₂, hrun₂, hext₂⟩ := extends_emit .move [.register st.nextRegister ty, v] st₁ rfl
  have hl := hext₁.toLater.trans hext₂.toLater
  have hr : st.nextRegister < st₂.nextRegister := Nat.lt_of_lt_of_le hlt hext₂.registers
  refine ⟨.register st.nextRegister ty, st₂, _, ?_, hext₁.trans hext₂, ⟨⟨hr, hty⟩, ?_⟩, ?_⟩
  · rw [ExprCode.apply, destination, run_bind hrun₁, run_bind hrun₂]
    rfl
  · intro σ τ env hf
    apply read_of_no_variable rfl hr _ hf
    rw [hl.scopes]
    exact hw.cellOf_ne (Nat.le_refl _)
  · intro σ env hh
    exact ⟨_, env, .move _ v σ, (Follows.refl hh).write_target hw ⟨rfl, .inr ⟨rfl, Nat.le_refl _⟩⟩,
      Machine.read_write_self rfl, rfl⟩

/-- The register of a local can be asked for. -/
private theorem Names.destination {r : Nat} (hn : Names ctx scopes e x) (hst : st.scopes = scopes)
    (hw : WellScoped st) (hx : cellOf ctx scopes x = some (.register r)) :
    Destination st (some (.register r (ctx.typeOf e.id))) := by
  subst hst
  obtain ⟨name, ty, rfl, hb⟩ := cellOf_eq_register hx
  obtain ⟨r', hb'⟩ := hn.local_bound name rfl
  rw [hb] at hb'
  cases hb'
  rintro d ⟨⟩
  refine ⟨r, _, rfl, hw.below hb, hn.value, ?_⟩
  intro name' ty' hb'
  cases hw.distinct hb hb'
  rw [hb] at hb'
  cases hb'
  rfl

/-! ### Assignments -/

/-- An assignment computes a register in place, and copies the value to any other variable. -/
private theorem does_assignPlain {value : Expr} {code : ExprCode} (hn : Names ctx scopes e x)
    (hv : Faithful M S ctx scopes value code) (hst : st.scopes = scopes)
    (hx : cellOf ctx scopes x = some c) :
    Does M ctx st none
      (ExprCode.assignPlain (.direct (c.operand (ctx.typeOf e.id)) (ctx.typeOf e.id)) code) Usable
      fun v _ env τ env' ↦
        let r := S.eval ctx value env
        env' = r.2.set x r.1 ∧ M.read τ v = r.1 := by
  unfold ExprCode.assignPlain
  rw [Place.ty, hn.value, if_neg (by decide)]
  have hcopy : Does M ctx st none (do
      let v ← code.value none
      copyInto (c.operand (ctx.typeOf e.id)) v (ctx.typeOf e.id)
      return v) Usable fun v _ env τ env' ↦
        let r := S.eval ctx value env
        env' = r.2.set x r.1 ∧ M.read τ v = r.1 := by
    apply (hv.value hst (destination_none st)).bind
    intro v st₁ hl₁ hv
    apply (does_store hn.value (by rw [hl₁.scopes, hst]; exact hx) (Cell.cell?_operand c _) v).bind
    intro _ st₂ hl₂ _
    apply Does.pure (fun _ ↦ hv.1.later hl₂)
    rintro ρ env₂ - τ env₁ - - ⟨rfl, hkeep⟩ σ env - - ⟨rfl, hread⟩
    rw [hkeep, hread]
    exact ⟨rfl, rfl⟩
  cases c with
  | register r =>
    intro hw
    obtain ⟨v, st₁, part, hrun, hext, hret, heff⟩ := hv.value hst (hn.destination hst hw hx) hw
    obtain rfl := hret.2 _ rfl
    refine ⟨_, st₁, part, hrun, hext, hret.1, ?_⟩
    intro σ env hh
    obtain ⟨τ, env', hex, hf, rfl, hread⟩ := heff σ env hh
    refine ⟨τ, _, hex, hf.assigned hw (hst ▸ hx) rfl, ?_, hread⟩
    rw [hread]
  | input _ | field _ => exact hcopy

/-- Write a combination of two operands to a variable. -/
private theorem does_combine {op : Opcode} (hop : op.isComputation = true) (hty : ty.isReference = false)
    (hx : cellOf ctx st.scopes x = some c) (p w : Operand) :
    Does M ctx st none (match (Place.direct (c.operand ty) ty).register? with
      | some dst => do
        emit op [dst, p, w]
        return dst
      | none => do
        let t ← newRegister ty
        emit op [t, p, w]
        (Place.direct (c.operand ty) ty).store t
        return t) Usable fun v σ env τ env' ↦
        let a := M.compute op [M.read σ p, M.read σ w]
        env' = env.set x a ∧ M.read τ v = a := by
  have hcopy : Does M ctx st none (do
      let t ← newRegister ty
      emit op [t, p, w]
      copyInto (c.operand ty) t ty
      return t) Usable fun v σ env τ env' ↦
        let a := M.compute op [M.read σ p, M.read σ w]
        env' = env.set x a ∧ M.read τ v = a := by
    apply Does.congr (ExprCode.apply op [p, w] none ty >>= fun t ↦ do
      copyInto (c.operand ty) t ty
      return t) rfl
    apply (does_compute hop [p, w] (destination_none st) hty).bind
    intro t st₁ hl₁ ht
    apply (does_store hty (hl₁.scopes ▸ hx) (Cell.cell?_operand c ty) t).bind
    intro _ st₂ hl₂ _
    apply Does.pure (fun _ ↦ ht.1.later hl₂)
    rintro ρ env₂ - τ env₁ - - ⟨rfl, hkeep⟩ σ env - - ⟨hread, rfl⟩
    rw [hkeep, hread]
    exact ⟨rfl, rfl⟩
  cases c with
  | register r =>
    apply (does_update hop [p, w] hx (show (Operand.register r ty).cell? = _ from rfl)).bind
    intro _ st₁ hl₁ _
    apply Does.pure (a := Operand.register r ty)
      (fun hw ↦ usable_operand (c := .register r) hw (hl₁.scopes ▸ hx) hty)
    rintro τ env₁ - σ env - - ⟨rfl, hread⟩
    exact ⟨rfl, hread⟩
  | input _ | field _ => exact hcopy

/-- A combining assignment reads the variable, then computes the value, then writes. -/
private theorem does_assignCompound (hI : Implements M S) {value : Expr} {code : ExprCode} (op : BinaryOp)
    (hn : Names ctx scopes e x) (hv : Faithful M S ctx scopes value code)
    (hs : Supported ctx scopes value) (hst : st.scopes = scopes)
    (hx : cellOf ctx scopes x = some c) :
    Does M ctx st none
      (ExprCode.assignCompound ctx op (.direct (c.operand (ctx.typeOf e.id)) (ctx.typeOf e.id)) code)
      Usable fun v _ env τ env' ↦
        let r := S.eval ctx value env
        let a := S.binary op (env.vars x) r.1
        env' = r.2.set x a ∧ M.read τ v = a := by
  have hstrings : ((ctx.typeOf e.id).isString || (code.ty ctx).isString) = false := by
    rw [ExprCode.ty, hv.expr, isString_of_isValue hn.value, isString_of_isValue hs.isValue]
    rfl
  unfold ExprCode.assignCompound
  simp only [Place.ty, hstrings]
  apply Does.assume
  intro hw
  have hu := usable_operand hw (hst ▸ hx) hn.value
  apply Does.congr (pin (c.operand (ctx.typeOf e.id)) [code.expr] >>= fun current ↦ do
    let rhs ← code.value none
    match (Place.direct (c.operand (ctx.typeOf e.id)) (ctx.typeOf e.id)).register? with
    | some dst =>
      emit (ExprCode.binaryOpcode op false) [dst, current, rhs]
      return dst
    | none =>
      let t ← newRegister (ctx.typeOf e.id)
      emit (ExprCode.binaryOpcode op false) [t, current, rhs]
      (Place.direct (c.operand (ctx.typeOf e.id)) (ctx.typeOf e.id)).store t
      return t) rfl
  apply (does_pin hu [code.expr]).bind
  rintro p st₁ hl₁ ⟨-, hstable⟩
  apply (hv.value (hl₁.scopes.trans hst) (destination_none st₁)).bind
  intro w st₂ hl₂ _
  have hx₂ : cellOf ctx st₂.scopes x = some c := by rwa [hl₂.scopes, hl₁.scopes, hst]
  apply (does_combine (binaryOpcode_isComputation op) hn.value hx₂ p w).conclude
  rintro v st₃ - ρ env₂ υ env₃ - - ⟨rfl, hread⟩ τ env₁ hh₁ hf₂ ⟨rfl, hw⟩ σ env hh - ⟨rfl, hp⟩
  have hkeep := hstable.read_eq (by rw [hv.expr]) hs hh₁ hf₂
  rw [Machine.read_of_cell (Cell.cell?_operand c _), hh.cells (hst ▸ hx) (by simp)] at hp
  rw [hread, hkeep, hp, hw, hI.binary]
  exact ⟨rfl, rfl⟩

private theorem Faithful.ofAssign (hI : Implements M S) {n : Node} {value : Expr} {op : Option BinaryOp}
    {code : ExprCode} (hn : Names ctx scopes e x) (hv : Faithful M S ctx scopes value code)
    (hs : Supported ctx scopes value) :
    Faithful M S ctx scopes (.assign n e op value)
      (.ofAssign ctx (.assign n e op value) (exprCode ctx e) op code) := by
  apply Faithful.ofValue hI
  intro st into hst hd
  obtain ⟨c, hx, hplace, -⟩ := hn.run hst
  generalize hp : Place.direct (c.operand (ctx.typeOf e.id)) (ctx.typeOf e.id) = place at hplace
  have hassign : Does M ctx st none (op.elim (ExprCode.assignPlain place code)
      fun op ↦ ExprCode.assignCompound ctx op place code) Usable fun v _ env τ env' ↦
        env' = (S.eval ctx (.assign n e op value) env).2 ∧
          M.read τ v = (S.eval ctx (.assign n e op value) env).1 := by
    subst hp
    simp only [Meaning.eval, hn.resolved]
    cases op with
    | none => exact does_assignPlain hn hv hst hx
    | some op => exact does_assignCompound hI op hn hv hs hst hx
  have hpinned : place.pinned [code.expr] st = .ok place st := by subst hp; rfl
  apply Does.congr _ (((run_bind hplace).trans (run_bind hpinned)).trans ?_) (hassign.bind
    (f := fun result ↦ deliver result into place.ty) ?_)
  · cases op <;> rfl
  intro v st₁ hl₁ hu
  subst hp
  apply (does_deliver (hd.later hl₁) hu hn.value).conclude
  rintro d st₂ - τ env₁ ρ env₂ - - ⟨rfl, hread⟩ σ env - - ⟨rfl, hval⟩
  exact ⟨rfl, hread.trans hval⟩

/-! ### Steps -/

/-- Step a register whose old value is not asked for in its own place. -/
private theorem does_stepAside {op : Opcode} {r : Nat} {one : Operand} (hop : op.isComputation = true)
    (hty : ty.isReference = false) (hx : cellOf ctx st.scopes x = some (.register r))
    (hd : Destination st into) (hne : intoCell into ≠ some (.register r))
    (hone : one.cell? = none) :
    Does M ctx st into (do
      let old ← destination into ty
      emit .move [old, .register r ty]
      emit op [.register r ty, .register r ty, one]
      return old) (Returned into) fun v σ env τ env' ↦
        M.read τ v = env.vars x ∧ env' = env.set x (M.compute op [env.vars x, M.read σ one]) := by
  intro hw
  obtain ⟨dst, st₁, q, hrun₁, hext₁, ht, hret⟩ := run_destination hd hty
  obtain ⟨st₂, hrun₂, hext₂⟩ := extends_emit .move [dst, .register r ty] st₁ rfl
  obtain ⟨st₃, hrun₃, hext₃⟩ :=
    extends_emit _ [.register r ty, .register r ty, one] st₂ (Opcode.not_exit_of_isComputation hop)
  have hl := hext₂.toLater.trans hext₃.toLater
  refine ⟨dst, st₃, _, ?_, hext₁.trans (hext₂.trans hext₃), ⟨hret.1.later hl, hret.2⟩, ?_⟩
  · rw [run_bind hrun₁, run_bind hrun₂, run_bind hrun₃]
    rfl
  · intro σ env hh
    have hc : (Operand.register r ty).cell? = some (.register r) := rfl
    have hold : M.read σ (.register r ty) = env.vars x := by
      rw [Machine.read_of_cell hc, hh.cells hx (by simp)]
    have hqr : Cell.register r ≠ .register q := by
      intro he
      rcases ht.choice with rfl | ⟨rfl, hq⟩
      · exact hne (by rw [he]; exact ht.cell)
      · exact hw.cellOf_ne hq x (he ▸ hx)
    have hmove := Machine.Executes.move (M := M) dst (.register r ty) σ
    have hstep := Machine.Executes.compute (M := M) hop (.register r ty) [.register r ty, one]
      (σ.write dst (M.read σ (.register r ty)))
    have hvalues : [Operand.register r ty, one].map (M.read (σ.write dst (M.read σ (.register r ty)))) =
        [env.vars x, M.read σ one] := by
      rw [List.map_cons, List.map_singleton, Machine.read_write_read, hold, Machine.read_of_no_cell hone]
    rw [hvalues] at hstep
    refine ⟨_, _, hmove.append hstep, ((Follows.refl hh).write_target hw ht).write_variable hw hx hc
      (fun _ h _ ↦ h), ?_, rfl⟩
    rw [Machine.read_of_cell ht.cell, Machine.cells_write hc, Function.update_of_ne hqr.symm,
      Machine.cells_write ht.cell, Function.update_self, hold]

/-- Step a register up or down. -/
private theorem does_stepRegister {op : Opcode} {r : Nat} {one : Operand} (hop : op.isComputation = true)
    (hty : ty.isReference = false) (hx : cellOf ctx st.scopes x = some (.register r))
    (hd : Destination st into) (hown : Destination st (some (.register r ty)))
    (hone : one.cell? = none) (first : Bool) :
    Does M ctx st into (ExprCode.stepRegister op (.register r ty) one first into ty) (Returned into)
      fun v σ env τ env' ↦
        let a := M.compute op [env.vars x, M.read σ one]
        M.read τ v = (if first then a else env.vars x) ∧ env' = env.set x a := by
  have hc : (Operand.register r ty).cell? = some (.register r) := rfl
  have hread {σ : Store V} {env : Env V} (hh : Holds M ctx st.scopes none σ env) :
      M.read σ (.register r ty) = env.vars x := by
    rw [Machine.read_of_cell hc, hh.cells hx (by simp)]
  unfold ExprCode.stepRegister
  split
  · next hfirst =>
    apply (does_update hop [.register r ty, one] hx hc).bind
    intro _ st₁ hl₁ _
    apply Does.assume
    intro hw
    apply (does_deliver (hd.later hl₁) (usable_operand (c := .register r) hw (hl₁.scopes ▸ hx) hty)
      hty).conclude
    rintro d st₂ - τ env₁ ρ env₂ - - ⟨rfl, hval⟩ σ env hh - ⟨rfl, hnew⟩
    rw [List.map_cons, List.map_singleton, hread hh] at hnew ⊢
    exact ⟨hval.trans hnew, rfl⟩
  · next hfirst =>
    split
    · next hinto =>
      -- the old value is asked for in the register itself
      apply Does.congr (ExprCode.apply .move [.register r ty] none ty >>= fun old ↦ do
        emit op [.register r ty, .register r ty, one]
        deliver old into ty) rfl
      apply (does_copy hty (.register r ty)).bind
      rintro old st₁ hl₁ ⟨hu, htmp⟩
      apply (does_update hop [.register r ty, one] (hl₁.scopes ▸ hx) hc).bind
      intro _ st₂ hl₂ _
      apply (does_deliver (hd.later (hl₁.trans hl₂)) (hu.later hl₂) hty).conclude
      rintro d st₃ - ρ env₂ υ env₃ - - ⟨rfl, hval⟩ τ env₁ hh₁ hf₁ ⟨rfl, -⟩ σ env hh - ⟨hold, rfl⟩
      refine ⟨by rw [hval, htmp hf₁, hold, hread hh], ?_⟩
      rw [List.map_cons, List.map_singleton, hread (hl₁.scopes ▸ hh₁), Machine.read_of_no_cell hone]
    · next hinto =>
      apply does_stepAside hop hty hx hd ?_ hone
      -- another register, since the place asked for has the type of the local in it
      intro hcell
      obtain ⟨d, rfl, hdc⟩ := Option.bind_eq_some_iff.mp hcell
      obtain ⟨q, ty', rfl, -, -, hq⟩ := hd d rfl
      cases hdc
      obtain ⟨name, ty₁, rfl, hb⟩ := cellOf_eq_register hx
      obtain ⟨_, _, heq, -, -, hr⟩ := hown _ rfl
      cases heq
      rw [← hq hb, hr hb] at hinto
      apply hinto
      rw [Option.some_beq_some]
      show Operand.same _ _ = true
      rw [Operand.same, beq_self_eq_true, beq_self_eq_true]
      rfl

/-- Step a variable that is no register. -/
private theorem does_stepPlace {op : Opcode} {one : Operand} (hop : op.isComputation = true)
    (hty : ty.isReference = false) (hx : cellOf ctx st.scopes x = some c)
    (hd : Destination st into) (hone : one.cell? = none) (first : Bool) :
    Does M ctx st into (ExprCode.stepPlace op (.direct (c.operand ty) ty) one first into)
      (Returned into) fun v σ env τ env' ↦
        let a := M.compute op [env.vars x, M.read σ one]
        M.read τ v = (if first then a else env.vars x) ∧ env' = env.set x a := by
  have hc := Cell.cell?_operand c ty
  have hread {σ : Store V} {env : Env V} (hh : Holds M ctx st.scopes none σ env) :
      M.read σ (c.operand ty) = env.vars x := by
    rw [Machine.read_of_cell hc, hh.cells hx (by simp)]
  cases first with
  | true =>
    apply Does.congr (ExprCode.apply op [c.operand ty, one] none ty >>= fun updated ↦ do
      copyInto (c.operand ty) updated ty
      deliver updated into ty) rfl
    apply (does_compute hop [c.operand ty, one] (destination_none st) hty).bind
    intro updated st₁ hl₁ hu
    apply (does_store hty (hl₁.scopes ▸ hx) hc updated).bind
    intro _ st₂ hl₂ _
    apply (does_deliver (hd.later (hl₁.trans hl₂)) (hu.1.later hl₂) hty).conclude
    rintro d st₃ - ρ env₂ υ env₃ - - ⟨rfl, hval⟩ τ env₁ - - ⟨rfl, hkeep⟩ σ env hh - ⟨hnew, rfl⟩
    rw [List.map_cons, List.map_singleton, hread hh] at hnew
    rw [hval, hkeep, hnew]
    exact ⟨rfl, rfl⟩
  | false =>
    apply Does.congr (ExprCode.apply .move [c.operand ty] none ty >>= fun old ↦ do
      let updated ← ExprCode.apply op [old, one] none ty
      copyInto (c.operand ty) updated ty
      deliver old into ty) rfl
    apply (does_copy hty (c.operand ty)).bind
    rintro old st₁ hl₁ ⟨hu, htmp⟩
    apply (does_compute hop [old, one] (destination_none st₁) hty).bind
    intro updated st₂ hl₂ _
    have hl := hl₁.trans hl₂
    apply (does_store hty (hl.scopes ▸ hx) hc updated).bind
    intro _ st₃ hl₃ _
    apply (does_deliver (hd.later (hl.trans hl₃)) (hu.later (hl₂.trans hl₃)) hty).conclude
    rintro d st₄ - υ env₃ ω env₄ - - ⟨rfl, hval⟩ ρ env₂ - hf₃ ⟨rfl, -⟩ τ env₁ - hf₂ ⟨hnew, rfl⟩ σ env hh
      - ⟨hold, rfl⟩
    rw [List.map_cons, List.map_singleton, hold, hread hh, Machine.read_of_no_cell hone] at hnew
    refine ⟨?_, by rw [hnew]⟩
    rw [hval, htmp (hf₂.trans hl₂ hf₃), hold, hread hh]
    rfl

private theorem Faithful.ofIncDec (hI : Implements M S) {n : Node} {increment first : Bool} {one : Value}
    (hn : Names ctx scopes e x) (hone : literalValue (.int 1) (ctx.typeOf e.id) e.span = .ok one) :
    Faithful M S ctx scopes (.incDec n e increment first)
      (.ofIncDec ctx (.incDec n e increment first) (exprCode ctx e) increment first) := by
  have hvalue {st : State} {into : Option Operand} (hst : st.scopes = scopes)
      (hd : Destination st into) :
      Does M ctx st into (ExprCode.step (exprCode ctx e) increment first into) (Returned into)
        (Computes M S ctx (.incDec n e increment first)) := by
    apply Does.assume
    intro hw
    obtain ⟨c, hx, hplace, -⟩ := hn.run hst
    let op : BinaryOp := if increment then .add else .sub
    have hopcode : (if increment then Opcode.add else .sub) = ExprCode.binaryOpcode op false := by
      cases increment <;> rfl
    have hone' : orFail (literalValue (.int 1) (ctx.typeOf e.id) (exprCode ctx e).expr.span) st =
        .ok one st := by
      rw [expr_exprCode, hone]
      rfl
    have hstep : Does M ctx st into
        (match (Place.direct (c.operand (ctx.typeOf e.id)) (ctx.typeOf e.id)).register? with
        | some dst => ExprCode.stepRegister (ExprCode.binaryOpcode op false) dst (.immediate one) first
          into (ctx.typeOf e.id)
        | none => ExprCode.stepPlace (ExprCode.binaryOpcode op false)
          (.direct (c.operand (ctx.typeOf e.id)) (ctx.typeOf e.id)) (.immediate one) first into)
        (Returned into) fun v σ env τ env' ↦
          let a := M.compute (ExprCode.binaryOpcode op false)
            [env.vars x, M.read σ (.immediate one)]
          M.read τ v = (if first then a else env.vars x) ∧ env' = env.set x a := by
      have hop := binaryOpcode_isComputation op
      cases c with
      | register r =>
        exact does_stepRegister hop hn.value (hst ▸ hx) hd (hn.destination hst hw hx) rfl first
      | input _ | field _ => exact does_stepPlace hop hn.value (hst ▸ hx) hd rfl first
    have hrun : ExprCode.step (exprCode ctx e) increment first into st = _ :=
      (run_bind hplace).trans (run_bind hone')
    rw [hopcode] at hrun
    apply Does.congr _ hrun
    apply hstep.conclude
    rintro v st' - σ env τ env' - - ⟨hread, rfl⟩
    have hval : M.compute (ExprCode.binaryOpcode op false)
        [env.vars x, M.read σ (.immediate one)] =
        S.binary op (env.vars x) (S.literal (.int 1) (ctx.typeOf e.id)) := by
      rw [hI.binary]
      exact congrArg _ (hI.immediate hone)
    simp only [Computes, Meaning.eval, hn.resolved]
    rw [hread, hval]
    exact ⟨rfl, rfl⟩
  have := Faithful.ofValue hI hvalue
  exact ⟨rfl, hvalue, this.branch⟩

/-! ### Calls -/

private theorem anyOf_eq_any (p : Expr → Bool) (args : List Expr) :
    Expr.anyOf p args = args.any (·.any p) := by
  induction args with
  | nil => rfl
  | cons a rest ih => rw [Expr.anyOf, List.any_cons, ih]

private theorem map_expr_exprCodes {args : List Expr}
    (h : ∀ a ∈ args, Faithful M S ctx scopes a (exprCode ctx a)) :
    (exprCodes ctx args).map (·.expr) = args := by
  induction args with
  | nil => rfl
  | cons a rest ih =>
    rw [exprCodes, List.map_cons, (h a List.mem_cons_self).expr,
      ih fun b hb ↦ h b (List.mem_cons_of_mem a hb)]

/-- Arguments are computed from left to right, and all can be read afterwards. -/
theorem does_arguments {args : List Expr} (hs : ∀ a ∈ args, Supported ctx scopes a)
    (hf : ∀ a ∈ args, Faithful M S ctx scopes a (exprCode ctx a)) (hst : st.scopes = scopes) :
    Does M ctx st none (ExprCode.arguments (exprCodes ctx args)) (fun _ _ ↦ True)
      fun ops _ env τ env' ↦
        env' = (S.evalAll ctx args env).2 ∧ ops.map (M.read τ) = (S.evalAll ctx args env).1 := by
  induction args generalizing st with
  | nil =>
    apply Does.pure (fun _ ↦ trivial)
    intro σ env _
    simp only [Meaning.evalAll, List.map_nil, and_self]
  | cons a rest ih =>
    have hs' : ∀ b ∈ rest, Supported ctx scopes b := fun b hb ↦ hs b (List.mem_cons_of_mem a hb)
    have hf' : ∀ b ∈ rest, Faithful M S ctx scopes b (exprCode ctx b) :=
      fun b hb ↦ hf b (List.mem_cons_of_mem a hb)
    apply ((hf a List.mem_cons_self).value hst (destination_none st)).bind
    intro v st₁ hl₁ hv
    apply (does_pin hv.1 _).bind
    rintro p st₂ hl₂ ⟨-, hstable⟩
    apply (ih hs' hf' (hl₂.scopes.trans (hl₁.scopes.trans hst))).bind
    intro ops st₃ _ _
    apply Does.pure (fun _ ↦ trivial)
    rintro ρ env₃ - τ₂ env₂ hh₂ hf₃ ⟨rfl, hops⟩ τ₁ env₁ - - ⟨rfl, hp⟩ σ env - - ⟨rfl, hval⟩
    -- what the rest of the arguments can write was pinned for
    have hkeep : M.read ρ p = M.read τ₂ p := by
      apply hstable τ₂ ρ _ _ hh₂ hf₃
      intro x hx
      rw [map_expr_exprCodes hf', ← anyOf_eq_any] at hx
      exact evalAll_keeps hx (fun b hb hw env ↦ (hs' b hb).eval_keeps hw env) _
    simp only [Meaning.evalAll]
    rw [List.map_cons, hkeep, hp, hval, hops]
    exact ⟨trivial, rfl⟩

/-- The store with all arguments of the next call pushed. -/
def pushed (M : Machine V) (σ : Store V) (ops : List Operand) : Store V :=
  { σ with arguments := σ.arguments ++ ops.map (M.read σ) }

/-- Operands are pushed from the first to the last. -/
theorem run_pushArguments (M : Machine V) (ops : List Operand) (st : State) :
    ∃ st' part, ExprCode.pushArguments ops st = .ok () st' ∧ Extends st st' part ∧
      ∀ σ : Store V, M.Executes part σ (pushed M σ ops) := by
  induction ops generalizing st with
  | nil =>
    refine ⟨st, [], rfl, .refl st, ?_⟩
    intro σ
    rw [pushed, List.map_nil, List.append_nil]
    exact .nil σ
  | cons v rest ih =>
    obtain ⟨st₁, hrun₁, hext₁⟩ := extends_emit .arg [v] st rfl
    obtain ⟨st₂, part, hrun₂, hext₂, hex⟩ := ih st₁
    refine ⟨st₂, _, ?_, hext₁.trans hext₂, ?_⟩
    · rw [ExprCode.pushArguments, run_bind hrun₁, hrun₂]
    · intro σ
      have hread (o : Operand) : M.read (σ.push (M.read σ v)) o = M.read σ o :=
        Machine.read_congr fun _ _ ↦ rfl
      have hpush : pushed M (σ.push (M.read σ v)) rest = pushed M σ (v :: rest) := by
        rw [pushed, pushed, List.map_congr_left fun o _ ↦ hread o]
        simp [Store.push]
      rw [← hpush]
      exact (Machine.Executes.arg v σ).append (hex _)

/-- A call does to the store what it does to the environment. -/
theorem Follows.call (hI : Implements M S) {σ : Store V} {env : Env V}
    (hh : Holds M ctx st.scopes none σ env) (m : UInt32) (ops : List Operand) :
    Follows M ctx st none σ (M.call (pushed M σ ops) m).2 (S.call env m (ops.map (M.read σ))).2 ∧
      (M.call (pushed M σ ops) m).1 = (S.call env m (ops.map (M.read σ))).1 := by
  have hfields : (pushed M σ ops).fields = env.fields := by
    funext i
    exact hh.cells (x := .field i) rfl (by simp)
  have hargs : (pushed M σ ops).arguments = ops.map (M.read σ) := by
    rw [pushed, hh.arguments, List.nil_append]
  have hcalls : (pushed M σ ops).calls = env.calls := hh.calls
  simp only [Machine.call, Meaning.call, hfields, hargs, hcalls, hI.invoke]
  refine ⟨⟨⟨?_, hh.constants, rfl, rfl⟩, fun r _ _ _ ↦ rfl⟩, trivial⟩
  intro x c hx _
  cases c with
  | register r =>
    obtain ⟨name, ty, rfl, -⟩ := cellOf_eq_register hx
    exact hh.cells hx (by simp)
  | input slot =>
    obtain ⟨i, rfl, -⟩ := cellOf_eq_input hx
    exact hh.cells hx (by simp)
  | field i =>
    cases cellOf_eq_field hx
    rfl

/-- Push computed arguments and call a method that has a result. -/
private theorem does_call (hI : Implements M S) (hty : ty.isReference = false) (hvoid : ty.isVoid = false)
    (hd : Destination st into) (m : UInt32) (ops : List Operand) :
    Does M ctx st into (do
      ExprCode.pushArguments ops
      ExprCode.emitCall .call .callVoid [.immediate (.method m)] into ty) (Returned into)
      fun v σ env τ env' ↦
        let r := S.call env m (ops.map (M.read σ))
        env' = r.2 ∧ M.read τ v = r.1 := by
  intro hw
  obtain ⟨st₁, part, hrun₁, hext₁, hex⟩ := run_pushArguments M ops st
  obtain ⟨dst, st₂, r, hrun₂, hext₂, ht, hret⟩ := run_destination (hd.later hext₁.toLater) hty
  obtain ⟨st₃, hrun₃, hext₃⟩ := extends_emit .call [dst, .immediate (.method m)] st₂ rfl
  refine ⟨dst, st₃, _, ?_, hext₁.trans (hext₂.trans hext₃),
    ⟨hret.1.later hext₃.toLater, hret.2⟩, ?_⟩
  · rw [run_bind hrun₁, ExprCode.emitCall, hvoid, if_neg (by decide), ExprCode.apply,
      run_bind hrun₂, run_bind hrun₃]
    rfl
  · intro σ env hh
    obtain ⟨hf, hresult⟩ := Follows.call hI hh m ops
    refine ⟨_, _, (hex σ).append (.call dst m _), hf.write_target hw (ht.before hext₁.toLater), rfl, ?_⟩
    rw [Machine.read_write_self ht.cell, hresult]

/-- A static call computes its arguments, pushes them and calls. -/
theorem run_staticCall {n : Node} {callee : Expr} {sym : Symbol}
    (hsym : ctx.symbol? callee.id = some sym) (hkind : sym.kind = .method)
    (hstatic : sym.isStatic = true) (args : List Expr) (into : Option Operand) (st : State) :
    ∃ st', Extends st st' [] ∧ (exprCode ctx (.call n callee args)).value into st = (do
      ExprCode.pushArguments (← ExprCode.arguments (exprCodes ctx args))
      ExprCode.emitCall .call .callVoid [.immediate (.method sym.index)] into (ctx.typeOf n.id)) st' := by
  have hfilter : (ctx.symbol? (exprCode ctx callee).expr.id).filter (·.kind == .method) = some sym := by
    rw [expr_exprCode, hsym, Option.filter_some, hkind]
    rfl
  simp only [exprCode, ExprCode.ofCall, ExprCode.ofValue, hfilter, ExprCode.callMethod, hstatic, if_pos]
  cases sym.implicit with
  | true =>
    obtain ⟨st', hrun, hext⟩ :=
      extends_declareFunction sym.index { name := sym.name, implicit := true } st
    exact ⟨st', hext, run_bind hrun⟩
  | false => exact ⟨st, .refl st, rfl⟩

private theorem Faithful.ofCall (hI : Implements M S) {n : Node} {callee : Expr} {args : List Expr}
    {sym : Symbol} (hty : ctx.IsValue n.id) (hvoid : (ctx.typeOf n.id).isVoid = false)
    (hsym : ctx.symbol? callee.id = some sym) (hkind : sym.kind = .method)
    (hstatic : sym.isStatic = true) (hs : ∀ a ∈ args, Supported ctx scopes a)
    (hf : ∀ a ∈ args, Faithful M S ctx scopes a (exprCode ctx a)) :
    Faithful M S ctx scopes (.call n callee args) (exprCode ctx (.call n callee args)) := by
  apply Faithful.ofValue hI
  intro st into hst hd
  obtain ⟨st₀, hext₀, hrun⟩ := run_staticCall hsym hkind hstatic args into st
  apply Does.skip hext₀ hrun
  apply (does_arguments hs hf (hext₀.scopes.trans hst)).bind
  intro ops st₁ hl₁ _
  apply (does_call hI hty hvoid (hd.later (hext₀.toLater.trans hl₁)) sym.index ops).conclude
  rintro d st₂ - τ env₁ ρ env₂ - - ⟨rfl, hread⟩ σ env - - ⟨rfl, hops⟩
  simp only [Computes, Meaning.eval, hsym]
  rw [hread, hops]
  exact ⟨rfl, rfl⟩

/-! ### All expressions -/

/-- The code of an expression over value types computes its value. -/
theorem Supported.faithful (hI : Implements M S) (hs : Supported ctx scopes e) :
    Faithful M S ctx scopes e (exprCode ctx e) := by
  induction hs with
  | literal hty hv => exact .ofLiteral hI hty hv
  | name hn => exact .ofName hI hn
  | constant hty hx hb => exact .ofConstant hI hty hx hb
  | unary hty _ ih => exact .ofUnary hI hty ih
  | binary hty hsa hsb iha ihb => exact .ofBinary hI hty iha ihb hsa hsb
  | logical _ _ _ iha ihb => exact .ofLogical hI iha ihb
  | conditional hty _ _ _ ihc iha ihb => exact .ofConditional hI hty ihc iha ihb
  | assign _ hn hs ih => exact .ofAssign hI hn ih hs
  | incDec _ hn hone => exact .ofIncDec hI hn hone
  | call hty hvoid hsym hkind hstatic hs ih => exact .ofCall hI hty hvoid hsym hkind hstatic hs ih

end MethodCompiler.Lowering
