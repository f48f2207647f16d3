import MethodCompiler.Proofs.OperandCode

/-!
# The code of expressions computes their values

The code of an expression, run on a store that holds an environment, gives the value of the expression
and leaves a store that holds the environment after it. One lemma for each kind of expression takes
this from its parts to the whole.
-/

namespace MethodCompiler.Lowering

variable {V : Type}

/-- The opcodes of a machine compute the operators. A branch on a relation is taken when the relation
is true, and the inverted branch exactly when it is not. -/
structure Implements (M : Machine V) (S : Meaning V) : Prop where
  immediate : ∀ {lit ty span v}, literalValue lit ty span = .ok v → M.immediate v = S.literal lit ty
  plus : ∀ a, S.unary .plus a = a
  neg : ∀ a, M.compute .neg [a] = S.unary .neg a
  bitNot : ∀ a, M.compute .bitNot [a] = S.unary .bitNot a
  not : ∀ a, M.compute .not [a] = S.unary .not a
  binary : ∀ op a b, M.compute (ExprCode.binaryOpcode op false) [a, b] = S.binary op a b
  jumpTrue : ∀ a, M.taken .jumpTrue [a] = S.truth a
  relation : ∀ {op branch}, (ExprCode.binaryOpcode op false).branchFor? = some branch →
    ∀ a b, M.taken branch [a, b] = S.truth (S.binary op a b)
  inverted : ∀ {branch other}, branch.inverted? = some other →
    ∀ values, M.taken other values = !M.taken branch values
  truth_bool : ∀ b ty, S.truth (S.literal (.bool b) ty) = b
  truth_not : ∀ a, S.truth (S.unary .not a) = !S.truth a
  invoke : M.invoke = S.invoke

/-- The result of code is the value of an expression, and the store after it holds the environment
after the expression. -/
def Computes (M : Machine V) (S : Meaning V) (ctx : Context) (e : Expr) (v : Operand) (_ : Store V)
    (env : Env V) (τ : Store V) (env' : Env V) : Prop :=
  env' = (S.eval ctx e env).2 ∧ M.read τ v = (S.eval ctx e env).1

/-- The code of an expression computes its value, and branches on it. -/
structure Faithful (M : Machine V) (S : Meaning V) (ctx : Context) (scopes : List Scope) (e : Expr)
    (code : ExprCode) : Prop where
  expr : code.expr = e
  value : ∀ {st into}, st.scopes = scopes → Destination st into →
    Does M ctx st into (code.value into) (Returned into) (Computes M S ctx e)
  branch : ∀ {st} (target sense), st.scopes = scopes →
    Decides M ctx st (code.branch target sense) target (S.test ctx e sense)

variable {M : Machine V} {S : Meaning V} {ctx : Context} {scopes : List Scope} {e : Expr}
  {st : State} {into : Option Operand}

/-- A caller need not ask for a place. -/
theorem destination_none (st : State) : Destination st none := fun _ h ↦ nomatch h

private theorem Implements.jump (hI : Implements M S) (sense : Bool) (a : V) :
    M.taken (if sense then .jumpTrue else .jumpFalse) [a] = (S.truth a == sense) := by
  cases sense with
  | true => rw [if_pos rfl, hI.jumpTrue, beq_true]
  | false =>
    rw [if_neg (by decide), hI.inverted (show Opcode.jumpTrue.inverted? = some .jumpFalse from rfl),
      hI.jumpTrue, beq_false]

/-- An expression that is branched on by its computed value. -/
theorem Faithful.ofValue (hI : Implements M S) {value : Option Operand → Lower Operand}
    (hv : ∀ {st into}, st.scopes = scopes → Destination st into →
      Does M ctx st into (value into) (Returned into) (Computes M S ctx e)) :
    Faithful M S ctx scopes e (.ofValue ctx e value) where
  expr := rfl
  value := hv
  branch {st} target sense hst := by
    apply Decides.after (hv hst (destination_none st))
    intro v st₁ _ _ _
    have hcond : (if sense then Opcode.jumpTrue else .jumpFalse).isConditionalBranch = true := by
      cases sense <;> rfl
    obtain ⟨st₂, hrun, hext⟩ :=
      extends_emit _ [v, .label target] st₁ (Opcode.not_exit_of_isConditionalBranch hcond)
    refine ⟨st₂, _, hrun, hext, ?_⟩
    rintro σ env τ env' - ⟨rfl, hread⟩
    refine ⟨?_, rfl⟩
    have := Machine.Branches.conditional (M := M) hcond [v] target τ
    rwa [List.map_singleton, hread, hI.jump] at this

/-! ### Literals and names -/

/-- A truth value that is known is not tested. -/
theorem decides_bool (hI : Implements M S) (n : Node) (b : Bool) (target : String) (sense : Bool) :
    Decides M ctx st ((exprCode ctx (.literal n (.bool b))).branch target sense) target
      (S.test ctx (.literal n (.bool b)) sense) := by
  intro _
  have htest (env : Env V) : S.test ctx (.literal n (.bool b)) sense env = (b == sense, env) := by
    simp only [Meaning.test, Meaning.eval, hI.truth_bool]
  by_cases hb : (b == sense) = true
  · obtain ⟨st', hrun, hadds⟩ := adds_emitJump target st
    refine ⟨st', _, ?_, hadds, ?_, ?_⟩
    · simp only [exprCode, ExprCode.ofLiteral, hb, if_pos]
      exact hrun
    · intro env hgo
      rw [htest, hb] at hgo
      cases hgo
    · intro σ env hh
      rw [htest, hb]
      exact ⟨σ, .jump target σ, .refl hh⟩
  · refine ⟨st, [], ?_, (Extends.refl st).toAdds, fun _ _ ↦ not_closed_nil, ?_⟩
    · simp only [exprCode, ExprCode.ofLiteral, if_neg hb]
      rfl
    · intro σ env hh
      rw [htest, Bool.not_eq_true _ |>.mp hb]
      exact ⟨σ, .fall target σ, .refl hh⟩

/-- The code of a literal is faithful. -/
theorem Faithful.ofLiteral (hI : Implements M S) {n : Node} {lit : Literal} {v : Value}
    (hty : ctx.IsValue n.id) (hv : literalValue lit (ctx.typeOf n.id) n.span = .ok v) :
    Faithful M S ctx scopes (.literal n lit) (.ofLiteral ctx (.literal n lit) lit) := by
  have hcode : Faithful M S ctx scopes (.literal n lit)
      (.ofValue ctx (.literal n lit) fun into ↦ do
        deliver (.immediate (← orFail (literalValue lit (ctx.typeOf n.id) n.span))) into
          (ctx.typeOf n.id)) := by
    apply Faithful.ofValue hI
    intro st into _ hd
    rw [hv]
    apply (does_deliver hd (v := .immediate v) trivial hty).conclude
    rintro d st' - σ env τ env' - - ⟨rfl, hread⟩
    refine ⟨by rw [Meaning.eval], ?_⟩
    rw [hread, Meaning.eval]
    exact hI.immediate hv
  cases lit with
  | bool b => exact ⟨rfl, hcode.value, fun target sense _ ↦ decides_bool hI n b target sense⟩
  | char _ | int _ | uint _ | float _ | string _ | null => exact hcode

/-- A local name is read and written in its register. -/
private theorem run_local {name : String} {r : Nat} {ty : Ty} (hst : st.scopes = scopes)
    (hb : binding? scopes name = some (.register r ty)) (e : Expr) :
    ExprCode.localPlace e name st = .ok (.direct (.register r ty) ty) st ∧
      ∀ into, ExprCode.localValue ctx e name into st = deliver (.register r ty) into ty st := by
  have hrun : lookup? name st = .ok (some (.register r ty)) st := by rw [lookup?_run, hst, hb]
  constructor
  · rw [ExprCode.localPlace, run_bind hrun]
    rfl
  · intro into
    rw [ExprCode.localValue, run_bind hrun]

/-- A name is read and written at the cell of its variable. -/
theorem Names.run {x : Variable} (hn : Names ctx scopes e x) (hst : st.scopes = scopes) :
    ∃ c, cellOf ctx scopes x = some c ∧
      (exprCode ctx e).place st =
        .ok (.direct (c.operand (ctx.typeOf e.id)) (ctx.typeOf e.id)) st ∧
      ∀ into, (exprCode ctx e).value into st =
        deliver (c.operand (ctx.typeOf e.id)) into (ctx.typeOf e.id) st := by
  obtain ⟨hx, -, hlocal, hparam⟩ := hn
  cases e with
  | name n name =>
    simp only [exprCode, ExprCode.ofName, ExprCode.ofValue]
    rw [Context.named?, show n.id = (Expr.name n name).id from rfl] at hx
    generalize Expr.name n name = e at *
    have hbound (hx : x = .localVar name) : ∃ c, cellOf ctx scopes x = some c ∧
        ExprCode.localPlace e name st =
          .ok (.direct (c.operand (ctx.typeOf e.id)) (ctx.typeOf e.id)) st ∧
        ∀ into, ExprCode.localValue ctx e name into st =
          deliver (c.operand (ctx.typeOf e.id)) into (ctx.typeOf e.id) st := by
      obtain ⟨r, hb⟩ := hlocal name hx
      exact ⟨.register r, by rw [hx, cellOf, hb], run_local hst hb e⟩
    unfold ExprCode.nameValue
    split at hx
    · next hsym =>
      simp only [ExprCode.namePlace, hsym]
      exact hbound (Option.some.inj hx).symm
    · next sym hsym =>
      simp only [ExprCode.namePlace, hsym]
      split at hx
      · next hk =>
        simp only [hk]
        exact hbound (Option.some.inj hx).symm
      · next hk =>
        simp only [hk]
        cases hx
        rw [← hparam sym hsym hk]
        exact ⟨_, rfl, rfl, fun _ ↦ rfl⟩
      · next hk =>
        simp only [hk]
        split at hx
        · cases hx
        · next hs =>
          cases hx
          rw [if_neg hs]
          exact ⟨_, rfl, rfl, fun _ ↦ rfl⟩
      · cases hx
      · cases hx
      · cases hx
  | _ => cases hx

/-- The operand of a variable can be read. -/
theorem usable_operand {x : Variable} {c : Cell} {ty : Ty} (hw : WellScoped st)
    (hx : cellOf ctx st.scopes x = some c) (hty : ty.isReference = false) :
    Usable st (c.operand ty) := by
  cases c with
  | register r =>
    obtain ⟨_, _, _, hb⟩ := cellOf_eq_register hx
    exact ⟨hw.below hb, hty⟩
  | input _ | field _ => exact hty

/-- The code of a name is faithful, if it names a variable. -/
theorem Faithful.ofName (hI : Implements M S) {n : Node} {name : String} {x : Variable}
    (hn : Names ctx scopes (.name n name) x) :
    Faithful M S ctx scopes (.name n name) (exprCode ctx (.name n name)) := by
  have hvalue : ∀ {st into}, st.scopes = scopes → Destination st into →
      Does M ctx st into ((exprCode ctx (.name n name)).value into) (Returned into)
        (Computes M S ctx (.name n name)) := by
    intro st into hst hd
    obtain ⟨c, hx, -, hrun⟩ := hn.run hst
    apply Does.assume
    intro hw
    subst hst
    apply Does.congr _ (hrun into)
    apply (does_deliver hd (usable_operand hw hx hn.value) hn.value).conclude
    rintro d st' - σ env τ env' hh - ⟨rfl, hread⟩
    simp only [Computes, Meaning.eval, hn.resolved]
    refine ⟨trivial, ?_⟩
    rw [hread, Machine.read_of_cell (Cell.cell?_operand c _), hh.cells hx (by simp)]
  have := Faithful.ofValue hI hvalue
  exact ⟨rfl, hvalue, this.branch⟩

/-- The code of a name is faithful, if it names a constant. -/
theorem Faithful.ofConstant (hI : Implements M S) {n : Node} {name : String} {v : Value}
    (hty : ctx.IsValue n.id) (hx : ctx.named? (.name n name) = some (.localVar name))
    (hb : binding? scopes name = some (.constant v)) :
    Faithful M S ctx scopes (.name n name) (exprCode ctx (.name n name)) := by
  have hvalue : ∀ {st into}, st.scopes = scopes → Destination st into →
      Does M ctx st into ((exprCode ctx (.name n name)).value into) (Returned into)
        (Computes M S ctx (.name n name)) := by
    intro st into hst hd
    have hrun : lookup? name st = .ok (some (.constant v)) st := by rw [lookup?_run, hst, hb]
    have hlocal : ExprCode.localValue ctx (.name n name) name into st =
        deliver (.immediate v) into (ctx.typeOf n.id) st := by
      rw [ExprCode.localValue, run_bind hrun]
      rfl
    have hval : (exprCode ctx (.name n name)).value into st =
        deliver (.immediate v) into (ctx.typeOf n.id) st := by
      simp only [exprCode, ExprCode.ofName, ExprCode.ofValue]
      unfold ExprCode.nameValue
      rw [Context.named?, show n.id = (Expr.name n name).id from rfl] at hx
      split at hx
      · next hsym =>
        simp only [hsym]
        exact hlocal
      · next sym hsym =>
        simp only [hsym]
        split at hx
        · next hk =>
          simp only [hk]
          exact hlocal
        · cases hx
        · split at hx <;> cases hx
        · cases hx
        · cases hx
        · cases hx
    apply Does.congr _ hval
    apply (does_deliver hd (v := .immediate v) trivial hty).conclude
    rintro d st' - σ env τ env' hh - ⟨rfl, hread⟩
    simp only [Computes, Meaning.eval, hx]
    refine ⟨trivial, ?_⟩
    rw [hread, hh.constants (hst ▸ hb)]
    rfl
  have := Faithful.ofValue hI hvalue
  exact ⟨rfl, hvalue, this.branch⟩

/-! ### Operators -/

/-- A negation is tested by testing its operand for the opposite. -/
theorem Implements.test_not (hI : Implements M S) (n : Node) (a : Expr) (sense : Bool) :
    S.test ctx (.unary n .not a) sense = S.test ctx a (!sense) := by
  funext env
  simp only [Meaning.test, Meaning.eval, hI.truth_not]
  cases S.truth (S.eval ctx a env).1 <;> cases sense <;> rfl

/-- The code of a unary operation is faithful if that of its operand is. -/
theorem Faithful.ofUnary (hI : Implements M S) {n : Node} {op : UnaryOp} {a : Expr}
    {code : ExprCode} (hty : ctx.IsValue n.id) (ha : Faithful M S ctx scopes a code) :
    Faithful M S ctx scopes (.unary n op a) (.ofUnary ctx (.unary n op a) op code) := by
  have hcompute (opcode : Opcode) (hop : opcode.isComputation = true)
      (hmeans : ∀ a, M.compute opcode [a] = S.unary op a) :
      Faithful M S ctx scopes (.unary n op a) (.ofValue ctx (.unary n op a) fun into ↦ do
        ExprCode.apply opcode [← code.value none] into (ctx.typeOf (Expr.unary n op a).id)) := by
    apply Faithful.ofValue hI
    intro st into hst hd
    apply (ha.value hst (destination_none st)).bind
    intro v st₁ hl hv
    apply (does_compute hop [v] (hd.later hl) hty).conclude
    rintro d st₂ - τ env' ρ env'' - - ⟨hread, rfl⟩ σ env - - ⟨rfl, hval⟩
    simp only [Computes, Meaning.eval]
    refine ⟨trivial, ?_⟩
    rw [hread, List.map_singleton, hval, hmeans]
  cases op with
  | plus =>
    apply Faithful.ofValue hI
    intro st into hst hd
    apply (ha.value hst hd).conclude
    rintro v st₁ - σ env τ env' - - ⟨rfl, hread⟩
    simp only [Computes, Meaning.eval, hI.plus]
    exact ⟨trivial, hread⟩
  | neg => exact hcompute .neg rfl hI.neg
  | bitNot => exact hcompute .bitNot rfl hI.bitNot
  | not =>
    have hcode := hcompute .not rfl hI.not
    refine ⟨rfl, hcode.value, fun target sense hst ↦ ?_⟩
    rw [hI.test_not]
    exact ha.branch target (!sense) hst

/-- What an expression leaves of an operand that is pinned for it. -/
theorem Stable.read_eq {a : Operand} {later : List Expr} {σ τ : Store V} {env : Env V}
    (h : Stable M ctx st a later) (he : later = [e]) (hs : Supported ctx scopes e)
    (hh : Holds M ctx st.scopes none σ env)
    (hf : Follows M ctx st none σ τ (S.eval ctx e env).2) : M.read τ a = M.read σ a := by
  apply h σ τ env _ hh hf
  intro x hx
  rw [he, List.any_cons, List.any_nil, Bool.or_false] at hx
  exact hs.eval_keeps hx env

/-- Two operands are computed from left to right, and both can be read afterwards. -/
private theorem does_operands {a b : Expr} {codeA codeB : ExprCode} (ha : Faithful M S ctx scopes a codeA)
    (hb : Faithful M S ctx scopes b codeB) (hs : Supported ctx scopes b) (hst : st.scopes = scopes) :
    Does M ctx st none (ExprCode.operands codeA codeB) (fun _ _ ↦ True) fun ops _ env τ env' ↦
      let r := S.eval ctx a env
      let s := S.eval ctx b r.2
      env' = s.2 ∧ ops.map (M.read τ) = [r.1, s.1] := by
  apply (ha.value hst (destination_none st)).bind
  intro v st₁ hl₁ hv
  apply (does_pin hv.1 [codeB.expr]).bind
  rintro p st₂ hl₂ ⟨-, hstable⟩
  apply (hb.value (by rw [hl₂.scopes, hl₁.scopes, hst]) (destination_none st₂)).bind
  intro w st₃ _ _
  apply Does.pure (fun _ ↦ trivial)
  rintro ρ env₃ - τ₂ env₂ hh₂ hf₃ ⟨rfl, hw⟩ τ₁ env₁ - - ⟨rfl, hp⟩ σ env - - ⟨rfl, hv⟩
  refine ⟨rfl, ?_⟩
  have hkeep := hstable.read_eq (by rw [hb.expr]) hs hh₂ hf₃
  rw [List.map_cons, List.map_singleton, hkeep, hp, hv, hw]

/-- A binary operation is computed by a statement that only computes. -/
theorem binaryOpcode_isComputation (op : BinaryOp) :
    (ExprCode.binaryOpcode op false).isComputation = true := by
  cases op <;> rfl

/-- A value type is no string. -/
theorem isString_of_isValue {id : NodeId} (h : ctx.IsValue id) : (ctx.typeOf id).isString = false := by
  unfold Context.IsValue at h
  cases hty : ctx.typeOf id <;> simp_all [Ty.isReference, Ty.isString]

/-- The branch on a relation, or on its opposite. -/
private theorem Implements.branch_relation (hI : Implements M S) {op : BinaryOp} {relation : Opcode}
    (h : (ExprCode.binaryOpcode op false).branchFor? = some relation) (sense : Bool) (a b : V) :
    (if sense then relation else relation.inverted?.getD relation).isConditionalBranch = true ∧
      M.taken (if sense then relation else relation.inverted?.getD relation) [a, b] =
        (S.truth (S.binary op a b) == sense) := by
  have hrel := hI.relation h a b
  cases sense with
  | true =>
    refine ⟨?_, by rw [if_pos rfl, hrel, beq_true]⟩
    cases op <;> cases h <;> rfl
  | false =>
    have hinv : ∃ other, relation.inverted? = some other ∧ other.isConditionalBranch = true := by
      cases op <;> cases h <;> exact ⟨_, rfl, rfl⟩
    obtain ⟨other, hother, hcond⟩ := hinv
    rw [if_neg (by decide), hother, Option.getD_some, hI.inverted hother, hrel, beq_false]
    exact ⟨hcond, rfl⟩

/-- The code of a binary operation is faithful if those of its operands are. -/
theorem Faithful.ofBinary (hI : Implements M S) {n : Node} {op : BinaryOp} {a b : Expr}
    {codeA codeB : ExprCode} (hty : ctx.IsValue n.id) (ha : Faithful M S ctx scopes a codeA)
    (hb : Faithful M S ctx scopes b codeB) (hsa : Supported ctx scopes a)
    (hsb : Supported ctx scopes b) :
    Faithful M S ctx scopes (.binary n op a b) (.ofBinary ctx (.binary n op a b) op codeA codeB) := by
  have hstrings : ((codeA.ty ctx).isString || (codeB.ty ctx).isString) = false := by
    rw [ExprCode.ty, ExprCode.ty, ha.expr, hb.expr, isString_of_isValue hsa.isValue,
      isString_of_isValue hsb.isValue]
    rfl
  have hcode : Faithful M S ctx scopes (.binary n op a b)
      (.ofValue ctx (.binary n op a b) fun into ↦ do
        ExprCode.apply (ExprCode.binaryOpcode op false) (← ExprCode.operands codeA codeB) into
          (ctx.typeOf (Expr.binary n op a b).id)) := by
    apply Faithful.ofValue hI
    intro st into hst hd
    apply (does_operands ha hb hsb hst).bind
    intro ops st₁ hl _
    apply (does_compute (binaryOpcode_isComputation op) ops (hd.later hl) hty).conclude
    rintro d st₂ - τ env' ρ env'' - - ⟨hread, rfl⟩ σ env - - ⟨rfl, hops⟩
    simp only [Computes, Meaning.eval]
    refine ⟨trivial, ?_⟩
    rw [hread, hops, hI.binary]
  unfold ExprCode.ofBinary
  simp only [hstrings]
  split
  · next relation hrel =>
    split at hrel
    · refine ⟨rfl, hcode.value, ?_⟩
      intro st target sense hst
      apply Decides.after (does_operands ha hb hsb hst)
      intro ops st₁ _ _ _
      have hcond (x y : V) := hI.branch_relation hrel sense x y
      obtain ⟨st₂, hrun, hext⟩ := extends_emit _ (ops ++ [Operand.label target]) st₁
        (Opcode.not_exit_of_isConditionalBranch (hcond S.undefined S.undefined).1)
      refine ⟨st₂, _, hrun, hext, ?_⟩
      rintro σ env τ env' - ⟨rfl, hops⟩
      obtain ⟨hcond, htaken⟩ := hcond (S.eval ctx a env).1 (S.eval ctx b (S.eval ctx a env).2).1
      have := Machine.Branches.conditional (M := M) hcond ops target τ
      rw [hops, htaken] at this
      exact ⟨this, rfl⟩
    · cases hrel
  · exact hcode

/-! ### Choices -/

/-- A logical expression is decided by its left side, or else by its right side. -/
private theorem Implements.test_logical (hI : Implements M S) (n : Node) (op : LogicalOp) (a b : Expr)
    (sense : Bool) (env : Env V) :
    S.test ctx (.logical n op a b) sense env =
      let r := S.test ctx a (op == .or) env
      if r.1 then ((op == .or) == sense, r.2) else S.test ctx b sense r.2 := by
  cases h : S.truth (S.eval ctx a env).1 == (op == .or) <;>
    simp [Meaning.test, Meaning.eval, Meaning.bool, h, hI.truth_bool]

/-- The branch on a logical expression decides as the expression does, if those on its sides do. -/
theorem decides_logical (hI : Implements M S) {n : Node} {op : LogicalOp} {a b : Expr}
    {codeA codeB : ExprCode}
    (ha : ∀ {st} (target sense), st.scopes = scopes →
      Decides M ctx st (codeA.branch target sense) target (S.test ctx a sense))
    (hb : ∀ {st} (target sense), st.scopes = scopes →
      Decides M ctx st (codeB.branch target sense) target (S.test ctx b sense))
    {target : String} {sense : Bool} (hst : st.scopes = scopes) :
    Decides M ctx st (ExprCode.branchOnLogical op codeA codeB target sense) target
      (S.test ctx (.logical n op a b) sense) := by
  intro hw
  unfold ExprCode.branchOnLogical
  by_cases hsense : (sense == (op == .or)) = true
  · -- both sides go to the target
    rw [if_pos hsense]
    obtain ⟨st₁, part₁, hrun₁, hadds₁, hfalls₁, heff₁⟩ := ha target sense hst hw
    obtain ⟨st₂, part₂, hrun₂, hadds₂, hfalls₂, heff₂⟩ := hb target sense
      (hadds₁.scopes.trans hst) (hw.later hadds₁.toLater)
    refine ⟨st₂, part₁ ++ part₂, by rw [run_bind hrun₁, hrun₂], hadds₁.trans hadds₂, ?_, ?_⟩
    · intro env hgo
      rw [hI.test_logical, ← beq_iff_eq.mp hsense] at hgo
      simp only at hgo
      split at hgo
      · rw [beq_self_eq_true] at hgo
        cases hgo
      · next hfirst =>
        exact not_closed_append (hfalls₁ env (Bool.eq_false_iff.mpr hfirst)) (hfalls₂ _ hgo)
    intro σ env hh
    obtain ⟨τ, hbr₁, hf₁⟩ := heff₁ σ env hh
    obtain ⟨ρ, hbr₂, hf₂⟩ := heff₂ τ _ (hadds₁.scopes ▸ hf₁.holds)
    have hboth := hbr₁.either fun _ ↦ hbr₂
    rw [hI.test_logical, ← beq_iff_eq.mp hsense]
    generalize S.test ctx a sense env = r at *
    rcases r with ⟨first, env₁⟩
    cases first with
    | true =>
      rw [beq_self_eq_true]
      exact ⟨τ, hboth, hf₁⟩
    | false => exact ⟨ρ, hboth, hf₁.trans hadds₁.toLater hf₂⟩
  · -- the left side goes past the right one, to a label behind it
    rw [if_neg hsense]
    have hother : (op == .or) = !sense := by
      revert hsense
      cases sense <;> cases (op == .or) <;> decide
    obtain ⟨st₀, hrun₀, hext₀⟩ := extends_newConstruct st
    generalize hskip : labelName (if op == .or then "or" else "and") st.nextConstruct "skip" = skip
    obtain ⟨st₁, part₁, hrun₁, hadds₁, -, heff₁⟩ := ha skip (!sense)
      (hext₀.scopes.trans hst) (hw.later hext₀.toLater)
    have hl₁ := hext₀.toLater.trans hadds₁.toLater
    obtain ⟨st₂, part₂, hrun₂, hadds₂, -, heff₂⟩ := hb target sense (hl₁.scopes.trans hst)
      (hw.later hl₁)
    obtain ⟨st₃, hrun₃, hext₃⟩ := extends_emitLabel skip st₂
    refine ⟨st₃, part₁ ++ (part₂ ++ [Statement.label skip]), ?_,
      hext₀.toAdds.trans (hadds₁.trans (hadds₂.trans hext₃.toAdds)), fun _ _ ↦ ?_, ?_⟩
    · rw [run_bind hrun₀, hskip, run_bind hrun₁, run_bind hrun₂, hrun₃]
    · rw [← List.append_assoc]
      exact not_closed_concat rfl
    · intro σ env hh
      obtain ⟨τ, hbr₁, hf₁⟩ := heff₁ σ env (hext₀.scopes ▸ hh)
      obtain ⟨ρ, hbr₂, hf₂⟩ := heff₂ τ _ (hadds₁.scopes ▸ hf₁.holds)
      have hboth := hbr₁.unless fun _ ↦ hbr₂
      have hf₁ := (Follows.refl hh).trans hext₀.toLater hf₁
      rw [hI.test_logical, hother]
      generalize S.test ctx a (!sense) env = r at *
      rcases r with ⟨past, env₁⟩
      cases past with
      | true =>
        rw [show ((!sense) == sense) = false by cases sense <;> rfl]
        exact ⟨τ, hboth, hf₁⟩
      | false => exact ⟨ρ, hboth, hf₁.trans hl₁ hf₂⟩

/-- A truth value that a branch decides is put in the place of the result. -/
private theorem does_valueOfBranch (hI : Implements M S) {branch : String → Bool → Lower Unit}
    (hb : ∀ {st} (target sense), st.scopes = scopes →
      Decides M ctx st (branch target sense) target (S.test ctx e sense))
    (hst : st.scopes = scopes) (hd : Destination st into) :
    Does M ctx st into (ExprCode.valueOfBranch branch into) (Returned into) fun v _ env τ env' ↦
      env' = (S.eval ctx e env).2 ∧ M.read τ v = S.bool (S.truth (S.eval ctx e env).1) := by
  intro hw
  obtain ⟨st₀, hrun₀, hext₀⟩ := extends_newConstruct st
  obtain ⟨dst, st₁, r, hrun₁, hext₁, ht, hret⟩ := run_destination (hd.later hext₀.toLater)
    (show Ty.bool.isReference = false from rfl)
  have hl₁ := hext₀.toLater.trans hext₁.toLater
  generalize hfalse : labelName "bool" st.nextConstruct "false" = falseLabel
  generalize hend : labelName "bool" st.nextConstruct "end" = endLabel
  obtain ⟨st₂, part, hrun₂, hadds₂, -, heff⟩ :=
    hb falseLabel false (hl₁.scopes.trans hst) (hw.later hl₁)
  obtain ⟨st₃, hrun₃, hext₃⟩ := extends_emit .move [dst, .immediate (.bool true)] st₂ rfl
  obtain ⟨st₄, hrun₄, hadds₄⟩ := adds_emitJump endLabel st₃
  obtain ⟨st₅, hrun₅, hext₅⟩ := extends_emitLabel falseLabel st₄
  obtain ⟨st₆, hrun₆, hext₆⟩ := extends_emit .move [dst, .immediate (.bool false)] st₅ rfl
  obtain ⟨st₇, hrun₇, hext₇⟩ := extends_emitLabel endLabel st₆
  have hext := hadds₂.andThen (hext₃.trans (hadds₄.andThen (hext₅.trans (hext₆.trans hext₇))
    (by simp))) (by simp)
  refine ⟨dst, st₇, _, ?_, hext₀.trans (hext₁.trans hext), ⟨hret.1.later hext.toLater, hret.2⟩, ?_⟩
  · simp only [ExprCode.valueOfBranch]
    rw [run_bind hrun₀, run_bind hrun₁, hfalse, hend, run_bind hrun₂, run_bind hrun₃, run_bind hrun₄,
      run_bind hrun₅, run_bind hrun₆, run_bind hrun₇]
    rfl
  · intro σ env hh
    obtain ⟨τ, hbr, hf⟩ := heff σ env (hl₁.scopes ▸ hh)
    have hmove (b : Bool) : M.Executes [.of .move [dst, .immediate (.bool b)]] τ
        (τ.write dst (S.bool b)) := by
      rw [Meaning.bool, ← hI.immediate (show literalValue (.bool b) .bool Span.none = _ from rfl)]
      exact .move dst _ τ
    have hgo : (S.test ctx e false env).1 = !S.truth (S.eval ctx e env).1 := beq_false _
    rw [hgo] at hbr
    refine ⟨τ.write dst (S.bool (S.truth (S.eval ctx e env).1)), _, .choice hbr ?_ ?_,
      ((Follows.refl hh).trans hl₁ hf).write_target hw (ht.before hext₀.toLater), rfl,
      Machine.read_write_self ht.cell⟩
    · intro hgo
      rw [show S.truth (S.eval ctx e env).1 = true by simpa using hgo]
      exact hmove true
    · intro hgo
      rw [show S.truth (S.eval ctx e env).1 = false by simpa using hgo]
      exact hmove false

/-- The code of a logical expression is faithful if those of its sides are. -/
theorem Faithful.ofLogical (hI : Implements M S) {n : Node} {op : LogicalOp} {a b : Expr}
    {codeA codeB : ExprCode} (ha : Faithful M S ctx scopes a codeA)
    (hb : Faithful M S ctx scopes b codeB) :
    Faithful M S ctx scopes (.logical n op a b)
      (.ofLogical ctx (.logical n op a b) op codeA codeB) where
  expr := rfl
  value hst hd := by
    apply (does_valueOfBranch hI (fun _ _ hst ↦ decides_logical hI (n := n) ha.branch hb.branch hst)
      hst hd).conclude
    rintro v st' - σ env τ env' - - ⟨rfl, hread⟩
    refine ⟨rfl, ?_⟩
    rw [hread, Meaning.eval]
    simp only
    split <;> simp only [Meaning.bool, hI.truth_bool]
  branch _ _ hst := decides_logical hI ha.branch hb.branch hst

/-- The code of a conditional expression is faithful if those of its parts are. -/
theorem Faithful.ofConditional (hI : Implements M S) {n : Node} {c a b : Expr}
    {codeC codeA codeB : ExprCode} (hty : ctx.IsValue n.id) (hc : Faithful M S ctx scopes c codeC)
    (ha : Faithful M S ctx scopes a codeA) (hb : Faithful M S ctx scopes b codeB) :
    Faithful M S ctx scopes (.conditional n c a b)
      (.ofConditional ctx (.conditional n c a b) codeC codeA codeB) := by
  apply Faithful.ofValue hI
  intro st into hst hd hw
  obtain ⟨st₀, hrun₀, hext₀⟩ := extends_newConstruct st
  obtain ⟨dst, st₁, r, hrun₁, hext₁, ht, hret⟩ := run_destination (hd.later hext₀.toLater) hty
  have hl₁ := hext₀.toLater.trans hext₁.toLater
  have hdst : Destination st₁ (some dst) :=
    ht.destination (hw.later hext₀.toLater) hext₁.toLater (hd.later hext₀.toLater) hret
  generalize helse : labelName "cond" st.nextConstruct "else" = elseLabel
  generalize hend : labelName "cond" st.nextConstruct "end" = endLabel
  obtain ⟨st₂, part₂, hrun₂, hadds₂, -, heff₂⟩ := hc.branch elseLabel false (hl₁.scopes.trans hst)
    (hw.later hl₁)
  have hl₂ := hl₁.trans hadds₂.toLater
  obtain ⟨v₃, st₃, part₃, hrun₃, hext₃, hv₃, heff₃⟩ := ha.value (hl₂.scopes.trans hst)
    (hdst.later hadds₂.toLater) (hw.later hl₂)
  have hl₃ := hl₂.trans hext₃.toLater
  obtain ⟨st₄, hrun₄, hadds₄⟩ := adds_emitJump endLabel st₃
  obtain ⟨st₅, hrun₅, hext₅⟩ := extends_emitLabel elseLabel st₄
  have hl₅ := hl₃.trans (hadds₄.toLater.trans hext₅.toLater)
  have hl₁₅ := hadds₂.toLater.trans (hext₃.toLater.trans (hadds₄.toLater.trans hext₅.toLater))
  obtain ⟨v₆, st₆, part₆, hrun₆, hext₆, hv₆, heff₆⟩ := hb.value (hl₅.scopes.trans hst)
    (hdst.later hl₁₅) (hw.later hl₅)
  obtain ⟨st₇, hrun₇, hext₇⟩ := extends_emitLabel endLabel st₆
  have hext := hadds₂.andThen (hext₃.trans (hadds₄.andThen (hext₅.trans (hext₆.trans hext₇))
    (by simp))) (by simp)
  refine ⟨dst, st₇, _, ?_, hext₀.trans (hext₁.trans hext), ⟨hret.1.later hext.toLater, hret.2⟩, ?_⟩
  · simp only
    rw [run_bind hrun₀, show (Expr.conditional n c a b).id = n.id from rfl, run_bind hrun₁, helse,
      hend, run_bind hrun₂, run_bind (run_discard hrun₃), run_bind hrun₄, run_bind hrun₅,
      run_bind (run_discard hrun₆), run_bind hrun₇]
    rfl
  · intro σ env hh
    obtain ⟨τ, hbr, hf⟩ := heff₂ σ env (hl₁.scopes ▸ hh)
    have hfτ := (Follows.refl hh).trans hl₁ hf
    have htst := ht.before hext₀.toLater
    simp only [Meaning.test] at hbr hf hfτ
    cases htruth : S.truth (S.eval ctx c env).1 with
    | true =>
      rw [htruth] at hbr
      obtain ⟨ρ, env', hex, hf', rfl, hread⟩ := heff₃ τ _ (hadds₂.scopes ▸ hf.holds)
      refine ⟨ρ, _, .choice hbr (fun _ ↦ hex) (by rintro ⟨⟩), hfτ.of_target hw htst hl₂ hf', ?_, ?_⟩
      · simp only [Meaning.eval, htruth, if_pos]
      · rw [← hv₃.2 dst rfl, hread]
        simp only [Meaning.eval, htruth, if_pos]
    | false =>
      rw [htruth] at hbr
      obtain ⟨ρ, env', hex, hf', rfl, hread⟩ := heff₆ τ _ (by rw [hl₁₅.scopes]; exact hf.holds)
      refine ⟨ρ, _, .choice hbr (by rintro ⟨⟩) (fun _ ↦ hex), hfτ.of_target hw htst hl₅ hf', ?_, ?_⟩
      · simp only [Meaning.eval, htruth, Bool.false_eq_true, if_false]
      · rw [← hv₆.2 dst rfl, hread]
        simp only [Meaning.eval, htruth, Bool.false_eq_true, if_false]

end MethodCompiler.Lowering