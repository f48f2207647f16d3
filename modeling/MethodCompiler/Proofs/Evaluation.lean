import MethodCompiler.Proofs.EmittedCode

/-!
# Values of expressions

Expressions over variables of value types, evaluated from left to right: the value of an expression
and what evaluating it does to the variables and to the calls made so far. What operators compute and
what a called method does comes from outside.
-/

namespace MethodCompiler

/-- What a name can stand for, besides constants. -/
inductive Variable where
  | localVar (name : String)
  | parameter (index : UInt32)
  /-- A field of `this`. -/
  | field (index : UInt32)
  deriving DecidableEq, Repr

/-- The values of the variables and the calls made so far. -/
structure Env (V : Type) where
  vars : Variable → V
  calls : Trace V

/-- What literals, operators and calls mean. -/
structure Meaning (V : Type) where
  literal : Literal → Ty → V
  unary : UnaryOp → V → V
  binary : BinaryOp → V → V → V
  truth : V → Bool
  invoke : Invoke V
  /-- Stands for the value of what has none. -/
  undefined : V

variable {V : Type}

namespace Env

def set (env : Env V) (x : Variable) (v : V) : Env V :=
  { env with vars := Function.update env.vars x v }

/-- Setting a variable changes no other one. -/
@[simp]
theorem vars_set (env : Env V) (x : Variable) (v : V) :
    (env.set x v).vars = Function.update env.vars x v := rfl

/-- Setting a variable makes no call. -/
@[simp]
theorem calls_set (env : Env V) (x : Variable) (v : V) : (env.set x v).calls = env.calls := rfl

def fields (env : Env V) (index : UInt32) : V := env.vars (.field index)

/-- The same variables with other fields. -/
def withFields (env : Env V) (fields : UInt32 → V) : Env V :=
  { env with vars := fun
      | .field index => fields index
      | x => env.vars x }

end Env

/-- The variable that an expression names. -/
def Lowering.Context.named? (ctx : Context) : Expr → Option Variable
  | .name n name =>
    match ctx.symbol? n.id with
    | none => some (.localVar name)
    | some sym =>
      match sym.kind with
      | .localVar => some (.localVar name)
      | .parameter => some (.parameter sym.index)
      | .field => if sym.isStatic then none else some (.field sym.index)
      | .property | .method | .type => none
  | _ => none

namespace Meaning

open Lowering

def bool (S : Meaning V) (b : Bool) : V := S.literal (.bool b) .bool

/-- Call a method: the result, and the environment that the call leaves. -/
def call (S : Meaning V) (env : Env V) (method : UInt32) (args : List V) : V × Env V :=
  let answer := S.invoke env.calls method args env.fields
  (answer.1, { env.withFields answer.2 with calls := env.calls ++ [(method, args)] })

mutual

/-- The value of an expression, and the environment after it. -/
def eval (S : Meaning V) (ctx : Context) : Expr → Env V → V × Env V
  | .literal n lit, env => (S.literal lit (ctx.typeOf n.id), env)
  | e@(.name _ _), env =>
    match ctx.named? e with
    | some x => (env.vars x, env)
    | none => (S.undefined, env)
  | .unary _ op a, env =>
    let r := S.eval ctx a env
    (S.unary op r.1, r.2)
  | .binary _ op a b, env =>
    let r := S.eval ctx a env
    let s := S.eval ctx b r.2
    (S.binary op r.1 s.1, s.2)
  | .logical _ op a b, env =>
    let r := S.eval ctx a env
    -- the right side decides unless the left side does
    if S.truth r.1 == (op == .or) then (S.bool (op == .or), r.2)
    else
      let s := S.eval ctx b r.2
      (S.bool (S.truth s.1), s.2)
  | .conditional _ c a b, env =>
    let r := S.eval ctx c env
    if S.truth r.1 then S.eval ctx a r.2 else S.eval ctx b r.2
  | .assign _ target op value, env =>
    match ctx.named? target with
    | none => (S.undefined, env)
    | some x =>
      -- a combining assignment reads its target first
      let old := env.vars x
      let r := S.eval ctx value env
      let v := match op with
        | none => r.1
        | some op => S.binary op old r.1
      (v, r.2.set x v)
  | .incDec _ target increment first, env =>
    match ctx.named? target with
    | none => (S.undefined, env)
    | some x =>
      let old := env.vars x
      let v := S.binary (if increment then .add else .sub) old
        (S.literal (.int 1) (ctx.typeOf target.id))
      (if first then v else old, env.set x v)
  | .call _ callee args, env =>
    match ctx.symbol? callee.id with
    | none => (S.undefined, env)
    | some sym =>
      let r := S.evalAll ctx args env
      S.call r.2 sym.index r.1
  | _, env => (S.undefined, env)

/-- The values of expressions that are evaluated one after the other. -/
def evalAll (S : Meaning V) (ctx : Context) : List Expr → Env V → List V × Env V
  | [], env => ([], env)
  | e :: rest, env =>
    let r := S.eval ctx e env
    let s := S.evalAll ctx rest r.2
    (r.1 :: s.1, s.2)

end

/-- Whether an expression has the given truth value, and the environment after it. -/
def test (S : Meaning V) (ctx : Context) (e : Expr) (sense : Bool) (env : Env V) : Bool × Env V :=
  let r := S.eval ctx e env
  (S.truth r.1 == sense, r.2)

end Meaning

namespace Lowering

/-- The node has a value type. -/
def Context.IsValue (ctx : Context) (id : NodeId) : Prop := (ctx.typeOf id).isReference = false

/-- An expression names a variable of a value type, and all that is known of its type agrees. -/
structure Names (ctx : Context) (scopes : List Scope) (e : Expr) (x : Variable) : Prop where
  resolved : ctx.named? e = some x
  value : ctx.IsValue e.id
  local_bound : ∀ name, x = .localVar name →
    ∃ r, binding? scopes name = some (.register r (ctx.typeOf e.id))
  parameter_ty : ∀ sym, ctx.symbol? e.id = some sym → sym.kind = .parameter →
    sym.ty = ctx.typeOf e.id

/-- The expressions over value types: literals, variables and constants, operators, choices,
assignments and steps of variables, and static calls. -/
inductive Supported (ctx : Context) (scopes : List Scope) : Expr → Prop
  | literal {n : Node} {lit : Literal} {v : Value} : ctx.IsValue n.id →
      literalValue lit (ctx.typeOf n.id) n.span = .ok v → Supported ctx scopes (.literal n lit)
  | name {n : Node} {name : String} {x : Variable} : Names ctx scopes (.name n name) x →
      Supported ctx scopes (.name n name)
  | constant {n : Node} {name : String} {v : Value} : ctx.IsValue n.id →
      ctx.named? (.name n name) = some (.localVar name) →
      binding? scopes name = some (.constant v) → Supported ctx scopes (.name n name)
  | unary {n : Node} {op : UnaryOp} {a : Expr} : ctx.IsValue n.id → Supported ctx scopes a →
      Supported ctx scopes (.unary n op a)
  | binary {n : Node} {op : BinaryOp} {a b : Expr} : ctx.IsValue n.id → Supported ctx scopes a →
      Supported ctx scopes b → Supported ctx scopes (.binary n op a b)
  | logical {n : Node} {op : LogicalOp} {a b : Expr} : ctx.IsValue n.id → Supported ctx scopes a →
      Supported ctx scopes b → Supported ctx scopes (.logical n op a b)
  | conditional {n : Node} {c a b : Expr} : ctx.IsValue n.id → Supported ctx scopes c →
      Supported ctx scopes a → Supported ctx scopes b → Supported ctx scopes (.conditional n c a b)
  | assign {n : Node} {target value : Expr} {op : Option BinaryOp} {x : Variable} :
      ctx.IsValue n.id → Names ctx scopes target x → Supported ctx scopes value →
      Supported ctx scopes (.assign n target op value)
  | incDec {n : Node} {target : Expr} {increment first : Bool} {x : Variable} {one : Value} :
      ctx.IsValue n.id → Names ctx scopes target x →
      literalValue (.int 1) (ctx.typeOf target.id) target.span = .ok one →
      Supported ctx scopes (.incDec n target increment first)
  | call {n : Node} {callee : Expr} {args : List Expr} {sym : Symbol} : ctx.IsValue n.id →
      (ctx.typeOf n.id).isVoid = false → ctx.symbol? callee.id = some sym → sym.kind = .method →
      sym.isStatic = true → (∀ a ∈ args, Supported ctx scopes a) →
      Supported ctx scopes (.call n callee args)

/-! ### What evaluation keeps -/

/-- The expressions that, by themselves, can write a variable: assignments and steps, and for a field
also calls. -/
def canWrite : Variable → Expr → Bool
  | .field _ => Expr.isWriteOrCall
  | _ => Expr.isWrite

section Keeps

variable {S : Meaning V} {ctx : Context} {scopes : List Scope} {e : Expr} {x : Variable}

/-- A supported expression has a value type. -/
theorem Supported.isValue (h : Supported ctx scopes e) : ctx.IsValue e.id := by
  cases h with
  | name hn => exact hn.value
  | literal hv | constant hv | unary hv | binary hv | logical hv | conditional hv | assign hv
  | incDec hv | call hv => exact hv

private theorem canWrite_assign (x : Variable) (n : Node) (target value : Expr)
    (op : Option BinaryOp) : canWrite x (.assign n target op value) = true := by
  cases x <;> rfl

private theorem canWrite_incDec (x : Variable) (n : Node) (target : Expr) (increment first : Bool) :
    canWrite x (.incDec n target increment first) = true := by
  cases x <;> rfl

/-- Arguments that cannot write a variable leave it as it is. -/
theorem evalAll_keeps {args : List Expr} (h : Expr.anyOf (canWrite x) args = false)
    (ih : ∀ a ∈ args, a.any (canWrite x) = false →
      ∀ env, (S.eval ctx a env).2.vars x = env.vars x) (env : Env V) :
    (S.evalAll ctx args env).2.vars x = env.vars x := by
  induction args generalizing env with
  | nil => simp only [Meaning.evalAll]
  | cons a rest ihr =>
    rw [Expr.anyOf, Bool.or_eq_false_iff] at h
    simp only [Meaning.evalAll]
    rw [ihr h.2 (fun b hb ↦ ih b (List.mem_cons_of_mem a hb)), ih a List.mem_cons_self h.1]

/-- A variable that no part of an expression can write keeps its value. -/
theorem Supported.eval_keeps (hs : Supported ctx scopes e) (h : e.any (canWrite x) = false)
    (env : Env V) : (S.eval ctx e env).2.vars x = env.vars x := by
  induction hs generalizing env with
  | literal => simp only [Meaning.eval]
  | name | constant =>
    simp only [Meaning.eval]
    split <;> rfl
  | unary _ _ ih =>
    rw [Expr.any, Bool.or_eq_false_iff] at h
    simp only [Meaning.eval]
    exact ih h.2 env
  | binary _ _ _ iha ihb =>
    simp only [Expr.any, Bool.or_eq_false_iff] at h
    simp only [Meaning.eval]
    rw [ihb h.2, iha h.1.2]
  | logical _ _ _ iha ihb =>
    simp only [Expr.any, Bool.or_eq_false_iff] at h
    simp only [Meaning.eval]
    split
    · exact iha h.1.2 env
    · rw [ihb h.2, iha h.1.2]
  | conditional _ _ _ _ ihc iha ihb =>
    simp only [Expr.any, Bool.or_eq_false_iff] at h
    simp only [Meaning.eval]
    split
    · rw [iha h.1.2, ihc h.1.1.2]
    · rw [ihb h.2, ihc h.1.1.2]
  | assign =>
    simp only [Expr.any, canWrite_assign, Bool.true_or, Bool.true_eq_false] at h
  | incDec =>
    simp only [Expr.any, canWrite_incDec, Bool.true_or, Bool.true_eq_false] at h
  | call _ _ hsym _ _ _ ih =>
    simp only [Expr.any, Bool.or_eq_false_iff] at h
    simp only [Meaning.eval, hsym, Meaning.call]
    cases x with
    | field i => simp [canWrite, Expr.isWriteOrCall] at h
    | localVar name | parameter i =>
      exact evalAll_keeps h.2 (fun a ha hw env ↦ ih a ha hw env) env

end Keeps

end Lowering

end MethodCompiler
