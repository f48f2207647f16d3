import MethodCompiler.Proofs.Correspondence

/-!
# Operands that code computes

Operands are read by the statement that uses them, after all that runs in between. Copying an operand
puts its value in a place; pinning it copies it exactly when something in between can change it.
-/

namespace MethodCompiler.Lowering

variable {V : Type} {M : Machine V} {ctx : Context} {st st' : State} {into : Option Operand}
  {dst src v : Operand} {ty : Ty} {c : Cell} {x : Variable} {r : Nat} {σ τ : Store V}
  {env : Env V} {a : V}

/-! ### Writing cells -/

/-- What a caller gets: an operand that can be read, the one that it asked for if it asked. -/
def Returned (into : Option Operand) (st : State) (v : Operand) : Prop :=
  Usable st v ∧ ∀ d, into = some d → v = d

/-- The place of a result: the one asked for, or a new register. -/
structure Target (st : State) (into : Option Operand) (dst : Operand) (r : Nat) : Prop where
  cell : dst.cell? = some (.register r)
  choice : into = some dst ∨ into = none ∧ st.nextRegister ≤ r

/-- The place of a result is one for an earlier state too. -/
theorem Target.before (h : Target st' into dst r) (hl : Later st st') : Target st into dst r :=
  ⟨h.cell, h.choice.imp_right fun hn ↦ ⟨hn.1, Nat.le_trans hl.registers hn.2⟩⟩

private theorem Holds.weaken (h : Holds M ctx st.scopes none σ env) (except : Option Cell) :
    Holds M ctx st.scopes except σ env :=
  ⟨fun hx _ ↦ h.cells hx (by simp), h.constants, h.calls, h.arguments⟩

private theorem Holds.write_except (h : Holds M ctx st.scopes (some c) σ env) (hc : dst.cell? = some c) :
    Holds M ctx st.scopes (some c) (σ.write dst a) env where
  cells hx hne := by
    rw [Machine.cells_write hc, Function.update_of_ne (fun he ↦ hne (congrArg some he.symm))]
    exact h.cells hx hne
  constants := h.constants
  calls := by rw [Machine.calls_write, h.calls]
  arguments := by rw [Machine.arguments_write, h.arguments]

/-- An overwritten cell that belongs to no variable makes no difference. -/
private theorem Holds.of_no_variable (h : Holds M ctx st.scopes (some c) σ env)
    (hc : ∀ x, cellOf ctx st.scopes x ≠ some c) : Holds M ctx st.scopes none σ env where
  cells {x d} hx _ := h.cells hx (fun he ↦ hc x (by rw [hx, he]))
  constants := h.constants
  calls := h.calls
  arguments := h.arguments

/-- No variable has a register that is not in use. -/
theorem WellScoped.cellOf_ne (hw : WellScoped st) (hr : st.nextRegister ≤ r) (x : Variable) :
    cellOf ctx st.scopes x ≠ some (.register r) := by
  intro hx
  obtain ⟨_, _, _, hb⟩ := cellOf_eq_register hx
  have := hw.below hb
  omega

/-- Writing the place of a result. -/
theorem Follows.write_target (hw : WellScoped st) (ht : Target st into dst r)
    (h : Follows M ctx st none σ τ env) : Follows M ctx st into σ (τ.write dst a) env := by
  have hex := (h.holds.weaken (some (.register r))).write_except ht.cell (a := a)
  rcases ht.choice with hinto | ⟨hinto, hr⟩
  · subst hinto
    refine ⟨by rw [intoCell, Option.bind_some, ht.cell]; exact hex, ?_⟩
    intro q hq hx hne
    have hqr : Cell.register q ≠ .register r := by
      intro he
      rw [intoCell, Option.bind_some, ht.cell, he] at hne
      exact hne rfl
    rw [Machine.cells_write ht.cell, Function.update_of_ne hqr]
    exact h.keeps q hq hx (by simp [intoCell])
  · subst hinto
    refine ⟨hex.of_no_variable (hw.cellOf_ne hr), ?_⟩
    intro q hq hx hne
    have hqr : Cell.register q ≠ .register r := by
      intro he
      injection he
      omega
    rw [Machine.cells_write ht.cell, Function.update_of_ne hqr]
    exact h.keeps q hq hx hne

/-- Asking for the place of the result is what the caller asked for. -/
theorem Follows.of_target {ρ : Store V} {env' : Env V} (hw : WellScoped st)
    (ht : Target st into dst r) (h : Follows M ctx st none σ τ env) (hl : Later st st')
    (h' : Follows M ctx st' (some dst) τ ρ env') : Follows M ctx st into σ ρ env' := by
  rcases ht.choice with rfl | ⟨rfl, hr⟩
  · exact h.trans hl h'
  · have hcell : intoCell (some dst) = some (.register r) := ht.cell
    have hall := h.trans hl h'
    refine ⟨(hcell ▸ hall.holds).of_no_variable (hw.cellOf_ne hr), ?_⟩
    intro q hq hx _
    apply hall.keeps q hq hx
    rw [hcell]
    rintro ⟨⟩
    omega

/-- Writing the cell of a variable assigns the variable. An overwritten cell is in order again if it is
this one. -/
theorem Follows.write_variable {into' : Option Operand} (hw : WellScoped st)
    (hx : cellOf ctx st.scopes x = some c) (hc : dst.cell? = some c)
    (hinto : ∀ d, intoCell into = some d → d ≠ c → intoCell into' = some d)
    (h : Follows M ctx st into σ τ env) :
    Follows M ctx st into' σ (τ.write dst a) (env.set x a) where
  holds := {
    cells := by
      intro y d hy hne
      rw [Machine.cells_write hc, Env.vars_set]
      by_cases hd : d = c
      · subst hd
        rw [hw.cellOf_injective hy hx, Function.update_self, Function.update_self]
      · have hyx : y ≠ x := by
          intro he
          rw [he, hx] at hy
          exact hd (Option.some.inj hy).symm
        rw [Function.update_of_ne hd, Function.update_of_ne hyx]
        exact h.holds.cells hy (fun he ↦ hne (hinto d he hd))
    constants := by
      intro name v hb
      have hne : Variable.localVar name ≠ x := by
        intro he
        rw [← he, cellOf, hb] at hx
        cases hx
      rw [Env.vars_set, Function.update_of_ne hne]
      exact h.holds.constants hb
    calls := by rw [Machine.calls_write, h.holds.calls, Env.calls_set]
    arguments := by rw [Machine.arguments_write, h.holds.arguments] }
  keeps := by
    intro r hr hy hne
    have hrc : Cell.register r ≠ c := fun he ↦ hy x (he ▸ hx)
    rw [Machine.cells_write hc, Function.update_of_ne hrc]
    exact h.keeps r hr hy (fun he ↦ hne (hinto _ he hrc))

/-- A variable whose cell was asked for has been assigned what is there. -/
theorem Follows.assigned (hw : WellScoped st) (hx : cellOf ctx st.scopes x = some c)
    (hc : dst.cell? = some c) (h : Follows M ctx st (some dst) σ τ env) :
    Follows M ctx st none σ τ (env.set x (M.read τ dst)) := by
  have hinto : ∀ d, intoCell (some dst) = some d → d ≠ c → intoCell none = some d := by
    intro d hd hne
    exact (hne (Option.some.inj (hd.symm.trans hc))).elim
  have := h.write_variable hw hx hc hinto (a := τ.cells c)
  rwa [Machine.write_of_cell hc, ← Machine.read_of_cell hc] at this

/-! ### Copies -/

private theorem cell?_of_beq (h : (dst == src) = true) : dst.cell? = src.cell? := by
  change dst.same src = true at h
  unfold Operand.same at h
  split at h <;> simp_all [Operand.cell?]

/-- Storing a value writes it, whether or not a statement is needed for it. -/
theorem run_copyInto (hty : ty.isReference = false) (hc : dst.cell? = some c) (src : Operand)
    (st : State) : ∃ st' part, copyInto dst src ty st = .ok () st' ∧ Extends st st' part ∧
      ∀ σ : Store V, M.Executes part σ (σ.write dst (M.read σ src)) := by
  unfold copyInto
  by_cases he : (dst == src) = true
  · rw [if_pos he]
    refine ⟨st, [], rfl, .refl st, ?_⟩
    intro σ
    rw [Machine.read_of_cell ((cell?_of_beq he).symm.trans hc), Machine.write_of_cell hc]
    exact .nil σ
  · rw [if_neg he, hty, if_neg (by decide)]
    obtain ⟨st', hrun, hext⟩ := extends_emit .move [dst, src] st rfl
    exact ⟨st', _, hrun, hext, fun σ ↦ .move dst src σ⟩

/-- Hand a value to the caller. -/
theorem does_deliver (hd : Destination st into) (hu : Usable st v) (hty : ty.isReference = false) :
    Does M ctx st into (deliver v into ty) (Returned into) fun d σ env τ env' ↦
      env' = env ∧ M.read τ d = M.read σ v := by
  intro hw
  cases into with
  | none =>
    exact ⟨v, st, [], rfl, .refl st, ⟨hu, fun _ h ↦ nomatch h⟩,
      fun σ env hh ↦ ⟨σ, env, .nil σ, .refl hh, rfl, rfl⟩⟩
  | some d =>
    obtain ⟨r, ty', rfl, hr, href, -⟩ := hd d rfl
    have hc : (Operand.register r ty').cell? = some (.register r) := rfl
    obtain ⟨st', part, hrun, hext, hex⟩ := run_copyInto (M := M) hty hc v st
    refine ⟨.register r ty', st', part, ?_, hext, ⟨⟨?_, href⟩, fun d h ↦ Option.some.inj h⟩, ?_⟩
    · rw [deliver, run_bind hrun]
      rfl
    · exact Nat.lt_of_lt_of_le hr hext.registers
    · intro σ env hh
      exact ⟨_, env, hex σ, (Follows.refl hh).write_target hw ⟨hc, .inl rfl⟩, rfl,
        Machine.read_write_self hc⟩

/-! ### Results -/

/-- The place of a result is the one asked for, or a new register. -/
theorem run_destination (hd : Destination st into) (hty : ty.isReference = false) :
    ∃ dst st' r, destination into ty st = .ok dst st' ∧ Extends st st' [] ∧ Target st into dst r ∧
      Returned into st' dst := by
  cases into with
  | none =>
    obtain ⟨st', hrun, hext, hlt⟩ := extends_newRegister ty st
    exact ⟨_, st', st.nextRegister, hrun, hext, ⟨rfl, .inr ⟨rfl, Nat.le_refl _⟩⟩, ⟨hlt, hty⟩,
      fun _ h ↦ nomatch h⟩
  | some d =>
    obtain ⟨r, ty', rfl, hr, href, -⟩ := hd d rfl
    exact ⟨_, st, r, rfl, .refl st, ⟨rfl, .inl rfl⟩, ⟨hr, href⟩, fun d h ↦ Option.some.inj h⟩

/-- The place of a result can be asked for in turn. -/
theorem Target.destination (hw : WellScoped st) (ht : Target st into dst r) (hl : Later st st')
    (hd : Destination st into) (hr : Returned into st' dst) : Destination st' (some dst) := by
  rintro d ⟨⟩
  rcases ht.choice with rfl | ⟨rfl, hle⟩
  · obtain ⟨q, ty, rfl, hq, href, hb⟩ := hd dst rfl
    exact ⟨q, ty, rfl, Nat.lt_of_lt_of_le hq hl.registers, href, fun h ↦ hb (hl.scopes ▸ h)⟩
  · have hu := hr.1
    have hc := ht.cell
    cases dst with
    | register q ty =>
      cases hc
      refine ⟨r, ty, rfl, hu.1, hu.2, fun h ↦ ?_⟩
      have := hw.below (hl.scopes ▸ h)
      omega
    | immediate _ | input _ _ | field _ _ | constant _ | this _ | exception | label _ => cases hc

/-- Apply an opcode that computes its result from the values of its operands. -/
theorem does_compute {op : Opcode} (hop : op.isComputation = true) (operands : List Operand)
    (hd : Destination st into) (hty : ty.isReference = false) :
    Does M ctx st into (ExprCode.apply op operands into ty) (Returned into) fun v σ env τ env' ↦
      M.read τ v = M.compute op (operands.map (M.read σ)) ∧ env' = env := by
  intro hw
  obtain ⟨dst, st₁, r, hrun₁, hext₁, ht, hret⟩ := run_destination hd hty
  obtain ⟨st₂, hrun₂, hext₂⟩ :=
    extends_emit _ (dst :: operands) st₁ (Opcode.not_exit_of_isComputation hop)
  refine ⟨dst, st₂, _, ?_, hext₁.trans hext₂, ⟨?_, hret.2⟩, ?_⟩
  · rw [ExprCode.apply, run_bind hrun₁, run_bind hrun₂]
    rfl
  · exact hret.1.later hext₂.toLater
  · intro σ env hh
    exact ⟨_, env, .compute hop dst operands σ, (Follows.refl hh).write_target hw ht,
      Machine.read_write_self ht.cell, rfl⟩

/-! ### Pinned operands -/

/-- An operand keeps its value in a run that changes no more variables than some expressions can. -/
def Stable (M : Machine V) (ctx : Context) (st : State) (v : Operand) (later : List Expr) : Prop :=
  ∀ σ τ env env', Holds M ctx st.scopes none σ env → Follows M ctx st none σ τ env' →
    (∀ x, later.any (·.any (canWrite x)) = false → env'.vars x = env.vars x) →
    M.read τ v = M.read σ v

variable {later : List Expr}

private theorem stable_of_variable (hc : v.cell? = some c) (hx : cellOf ctx st.scopes x = some c)
    (hlater : later.any (·.any (canWrite x)) = false) : Stable M ctx st v later := by
  intro σ τ env env' hh hf hk
  rw [Machine.read_of_cell hc, Machine.read_of_cell hc, hf.holds.cells hx (by simp [intoCell]),
    hh.cells hx (by simp), hk x hlater]

/-- The register of no variable keeps its value in any run. -/
theorem read_of_no_variable (hc : v.cell? = some (.register r)) (hr : r < st.nextRegister)
    (hx : ∀ x, cellOf ctx st.scopes x ≠ some (.register r)) (hf : Follows M ctx st none σ τ env) :
    M.read τ v = M.read σ v := by
  rw [Machine.read_of_cell hc, Machine.read_of_cell hc, hf.keeps r hr hx (by simp [intoCell])]

private theorem stable_of_no_variable (hc : v.cell? = some (.register r)) (hr : r < st.nextRegister)
    (hx : ∀ x, cellOf ctx st.scopes x ≠ some (.register r)) : Stable M ctx st v later :=
  fun _ _ _ _ _ hf _ ↦ read_of_no_variable hc hr hx hf

/-- The test for what can change an operand misses nothing. -/
private theorem run_clobbered (M : Machine V) (ctx : Context) (hw : WellScoped st) (hu : Usable st v)
    (later : List Expr) : ∃ b, clobbered v later st = .ok b st ∧
      (b = false → Stable M ctx st v later) ∧ (b = true → ∃ c, v.cell? = some c) := by
  cases v with
  | register r ty =>
    refine ⟨_, rfl, ?_, fun _ ↦ ⟨_, rfl⟩⟩
    intro hb
    by_cases hx : ∃ x, cellOf ctx st.scopes x = some (.register r)
    · -- the register of a variable has a name, so the later expressions decide
      obtain ⟨x, hx⟩ := hx
      obtain ⟨name, ty', rfl, hbind⟩ := cellOf_eq_register hx
      rw [hw.named hbind, Bool.true_and] at hb
      exact stable_of_variable rfl hx hb
    · exact stable_of_no_variable rfl hu.1 fun x h ↦ hx ⟨x, h⟩
  | input slot ty =>
    obtain ⟨i, rfl⟩ := exists_inputSlot ctx.method slot
    exact ⟨_, rfl, fun hb ↦ stable_of_variable (x := .parameter i) rfl rfl hb, fun _ ↦ ⟨_, rfl⟩⟩
  | field i ty =>
    exact ⟨_, rfl, fun hb ↦ stable_of_variable (x := .field i) rfl rfl hb, fun _ ↦ ⟨_, rfl⟩⟩
  | immediate value => exact ⟨false, rfl, fun _ _ _ _ _ _ _ _ ↦ rfl, fun h ↦ nomatch h⟩
  | constant _ | this _ | exception | label _ => exact hu.elim

private theorem isReference_of_usable (hu : Usable st v) (hc : v.cell? = some c) :
    (v.ty?.getD .object).isReference = false := by
  cases v with
  | register r ty => exact hu.2
  | input _ ty | field _ ty => exact hu
  | immediate _ | constant _ | this _ | exception | label _ => cases hc

/-- Pinning an operand keeps its value, through all that the later expressions do. -/
theorem does_pin (hu : Usable st v) (later : List Expr) :
    Does M ctx st none (pin v later)
      (fun st' p ↦ Usable st' p ∧ Stable M ctx st' p later) fun p σ env τ env' ↦
      env' = env ∧ M.read τ p = M.read σ v := by
  intro hw
  obtain ⟨b, hrun, hstable, hcell⟩ := run_clobbered M ctx hw hu later
  cases b with
  | false =>
    refine ⟨v, st, [], ?_, .refl st, ⟨hu, hstable rfl⟩, fun σ env hh ↦
      ⟨σ, env, .nil σ, .refl hh, rfl, rfl⟩⟩
    rw [pin, run_bind hrun]
    rfl
  | true =>
    obtain ⟨c, hc⟩ := hcell rfl
    have hty := isReference_of_usable hu hc
    obtain ⟨st₁, hrun₁, hext₁, hlt⟩ := extends_newRegister (v.ty?.getD .object) st
    obtain ⟨st₂, part, hrun₂, hext₂, hex⟩ := run_copyInto (M := M) hty
      (show (Operand.register st.nextRegister (v.ty?.getD .object)).cell? = _ from rfl) v st₁
    have hl := hext₁.toLater.trans hext₂.toLater
    have hr : st.nextRegister < st₂.nextRegister := Nat.lt_of_lt_of_le hlt hext₂.registers
    refine ⟨.register st.nextRegister (v.ty?.getD .object), st₂, part, ?_, hext₁.trans hext₂,
      ⟨⟨hr, hty⟩, ?_⟩, ?_⟩
    · rw [pin, run_bind hrun, if_pos rfl, run_bind hrun₁, run_bind hrun₂]
      rfl
    · apply stable_of_no_variable rfl hr
      rw [hl.scopes]
      exact hw.cellOf_ne (Nat.le_refl _)
    · intro σ env hh
      exact ⟨_, env, hex σ, (Follows.refl hh).write_target hw ⟨rfl, .inr ⟨rfl, Nat.le_refl _⟩⟩, rfl,
        Machine.read_write_self rfl⟩

end MethodCompiler.Lowering
