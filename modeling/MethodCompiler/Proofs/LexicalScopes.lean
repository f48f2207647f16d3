import MethodCompiler.Lowering.Function
import MethodCompiler.Proofs.EmittedCode

/-!
# Lexical scopes and their code

The code of a scope is what is emitted between its opening and its closing. A recorded step runs a step of
emitting code and tells which scopes a run of it closes, where their code stands and which registers their
locals have. Steps are recorded one by one, scopes in `recordScope`; with that the lowering of a method,
which is the same for every way to run steps, tells of its scopes.
-/

namespace MethodCompiler

/-- A scope that has been closed. Its code stands at the positions from `first` to `last`, the latter not
included. -/
structure ScopeSpan where
  first : Nat
  last : Nat
  /-- The registers of its locals. -/
  registers : List Nat
  deriving DecidableEq, Repr

namespace Lowering

/-- A step of emitting code, and the scopes that a run from a state closes. -/
structure Recorded (α : Type) where
  run : Lower α
  closed : State → List ScopeSpan

namespace Recorded

variable {α β : Type}

/-- A step that closes no scopes. -/
def lift (act : Lower α) : Recorded α := ⟨act, fun _ ↦ []⟩

/-- The scopes that a step closes after what has come out of another one. -/
def closedAfter (f : α → Recorded β) : EStateM.Result Error State α → List ScopeSpan
  | .ok a st => (f a).closed st
  | .error _ _ => []

/-- One step after another. -/
def andThen (x : Recorded α) (f : α → Recorded β) : Recorded β where
  run := x.run >>= fun a ↦ (f a).run
  closed st := x.closed st ++ closedAfter f (x.run st)

instance : Monad Recorded where
  pure a := lift (pure a)
  bind := andThen

instance : MonadLift Lower Recorded := ⟨lift⟩

/-- Tell of a scope. -/
def note (span : ScopeSpan) : Recorded Unit := ⟨pure (), fun _ ↦ [span]⟩

/-- A run of one step after another is a run of each. -/
theorem run_bind (x : Recorded α) (f : α → Recorded β) :
    (x >>= f).run = x.run >>= fun a ↦ (f a).run := rfl

/-- The scopes that are closed by one step after another. -/
theorem closed_bind {x : Recorded α} {st st' : State} {a : α} (h : x.run st = .ok a st')
    (f : α → Recorded β) : (x >>= f).closed st = x.closed st ++ (f a).closed st' := by
  change x.closed st ++ closedAfter f (x.run st) = _
  rw [h]
  rfl

end Recorded

/-- Run a step in a scope of its own, and tell of the scope. -/
def recordScope (ctx : Context) (body : Recorded Unit) : Recorded Unit := do
  let opened : State ← (get : Lower State)
  pushScope
  body
  let filled : State ← (get : Lower State)
  popScope ctx
  let after : State ← (get : Lower State)
  Recorded.note ⟨opened.code.size, after.code.size, (filled.scopes.headD []).registers⟩

instance : MonadScope Recorded := ⟨recordScope⟩

private theorem get_bind_const {β : Type} (act : Lower β) :
    ((get : Lower State) >>= fun _ ↦ act) = act := rfl

private theorem run_liftM {α : Type} (act : Lower α) : (liftM act : Recorded α).run = act := rfl

/-- A recorded scope is a scope. -/
theorem run_recordScope (ctx : Context) (body : Recorded Unit) :
    (recordScope ctx body).run = inScope ctx body.run := by
  simp only [recordScope, Recorded.run_bind, run_liftM, Recorded.note, get_bind_const, bind_pure_unit]
  rfl

/-- A scope is told of behind those that were closed in it. -/
theorem closed_recordScope {ctx : Context} {body : Recorded Unit} {st st₁ st₂ : State}
    (hbody : body.run { st with scopes := [] :: st.scopes } = .ok () st₁)
    (hpop : popScope ctx st₁ = .ok () st₂) :
    (recordScope ctx body).closed st = body.closed { st with scopes := [] :: st.scopes } ++
      [⟨st.code.size, st₂.code.size, (st₁.scopes.headD []).registers⟩] := by
  have hget (st : State) : (liftM (get : Lower State) : Recorded State).run st = .ok st st := rfl
  have hpush : (liftM pushScope : Recorded Unit).run st =
      .ok () { st with scopes := [] :: st.scopes } := rfl
  have hclose : (liftM (popScope ctx) : Recorded Unit).run st₁ = .ok () st₂ := hpop
  rw [recordScope, Recorded.closed_bind (hget st), Recorded.closed_bind hpush,
    Recorded.closed_bind hbody, Recorded.closed_bind (hget st₁), Recorded.closed_bind hclose,
    Recorded.closed_bind (hget st₂)]
  rfl

end Lowering

end MethodCompiler
