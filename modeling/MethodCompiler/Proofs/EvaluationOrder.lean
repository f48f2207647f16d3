import MethodCompiler.Proofs.AssignmentCode
import MethodCompiler.Proofs.ExpressionRuns
import MethodCompiler.Proofs.Words

/-!
# Expressions are evaluated from left to right

The code emitted for an expression over variables of value types can be run from every store. It makes
the calls that evaluation from left to right makes, leaves the variables with the values that evaluation
leaves them, and gives the value of the expression.
-/

namespace MethodCompiler

open Lowering

variable {V : Type}

/-- The value of a variable that has no cell: that of its constant. -/
private def constantOf (M : Machine V) (scopes : List Scope) : Variable → V
  | .localVar name =>
    match binding? scopes name with
    | some (.constant v) => M.immediate v
    | _ => M.immediate .null
  | _ => M.immediate .null

/-- Every store that has no pushed arguments holds some environment. -/
private theorem exists_holds (M : Machine V) (ctx : Context) (scopes : List Scope) {σ : Store V}
    (h : σ.arguments = []) : ∃ env, Holds M ctx scopes none σ env := by
  refine ⟨⟨fun x ↦ ((cellOf ctx scopes x).map σ.cells).getD (constantOf M scopes x), σ.calls⟩,
    ?_, ?_, rfl, h⟩
  · intro x c hx _
    simp only [hx, Option.map_some, Option.getD_some]
  · intro name v hb
    simp only [cellOf, hb, Option.map_none, Option.getD_none, constantOf]

/-- The code of an expression defines each of its labels once. -/
private theorem nodup_labelsOf_value {ctx : Context} {st st' : State} {into : Option Operand} {e : Expr}
    {v : Operand}
    {part : List Statement} (hw : WellScoped st) (hd : Destination st into)
    (hrun : (exprCode ctx e).value into st = .ok v st') (hcode : st'.code.toList = st.code.toList ++ part) :
    (labelsOf part).Nodup := by
  let k : Setting :=
    { method := ctx.method, symbols := ctx.symbols, loading := if ctx.inPlace then .inPlace else .pooled
      comments := ctx.comments, comments' := ctx.comments, allowed := fun _ _ ↦ True, labelFree := false }
  have hctx : k.second = ctx := by
    obtain ⟨method, symbols, comments, inPlace⟩ := ctx
    cases inPlace <;> rfl
  have hoffered : Offered (fun _ ↦ True) st.stock into := by
    intro d hinto
    obtain ⟨r, ty, rfl, hr, -⟩ := hd d hinto
    exact ⟨trivial, hr⟩
  have hprovides : st.Provides k fun _ ↦ True := by
    refine ⟨fun name ↦ ?_, fun _ _ ↦ trivial⟩
    cases hb : binding? st.scopes name with
    | none => exact trivial
    | some b =>
      cases b with
      | register r ty => exact ⟨trivial, hw.below hb⟩
      | constant v => exact fun hfree ↦ by cases hfree
  have hbuilt : Built k (fun _ ↦ True) [] [] st.stock _ _ ((exprCode k.second e).value into) :=
    (exprBuilt k (fun _ ↦ True) e fun _ _ ↦ trivial).value into hoffered
  rw [hctx] at hbuilt
  obtain ⟨-, part', hran⟩ := hbuilt.ran (.refl _) hprovides hrun
  have hlaid : Laid false st'.constants [] [] _ _ [] part' :=
    hran.laid (List.forall_mem_nil _) List.prefix_rfl
  rw [← labelsOf_map_bare, ← hran.eq_map_bare hcode]
  exact hlaid.nodup_labelsOf

/-- The code of an expression makes the calls of evaluating it from left to right, leaves the variables
as evaluation does, and gives its value where the caller asked for it. -/
theorem exprCode_value_evaluates {M : Machine V} {S : Meaning V} {ctx : Context} {st : State}
    {into : Option Operand} {e : Expr} (hI : Implements M S) (hw : WellScoped st)
    (hs : Supported ctx st.scopes e) (hd : Destination st into) :
    ∃ v st' part, (exprCode ctx e).value into st = .ok v st' ∧
      st'.code.toList = st.code.toList ++ part ∧ (labelsOf part).Nodup ∧
      (∀ d, into = some d → v = d) ∧
      (∀ σ : Store V, σ.arguments = [] → ∃ env, Holds M ctx st.scopes none σ env) ∧
      ∀ σ env, Holds M ctx st.scopes none σ env →
        ∃ τ, M.Reaches part 0 (0, σ) (part.length, τ) ∧ M.Executes part σ τ ∧
          Holds M ctx st.scopes (intoCell into) τ (S.eval ctx e env).2 ∧
          M.read τ v = (S.eval ctx e env).1 := by
  obtain ⟨v, st', part, hrun, hext, hret, heff⟩ := (hs.faithful hI).value rfl hd hw
  have hnodup : (labelsOf part).Nodup := nodup_labelsOf_value hw hd hrun hext.code
  refine ⟨v, st', part, hrun, hext.code, hnodup, hret.2, fun σ h ↦ exists_holds M ctx _ h, ?_⟩
  intro σ env hh
  obtain ⟨τ, env', hex, hfol, rfl, hread⟩ := heff σ env hh
  have hrun := hex part 0 hnodup (.refl part)
  rw [Nat.zero_add] at hrun
  exact ⟨τ, hrun, hex, hfol.holds, hread⟩

/-! ### An assignment whose value steps its target -/

private def stepContext : Context where
  method := { index := 0, name := "m", params := [], returnTy := .void, body := .mk [] Span.none }
  symbols :=
    { symbols := .ofList [(5, ⟨.field, "total", .i32, false, 0, false, false⟩),
        (7, ⟨.method, "add", .i32, true, 4, false, false⟩)]
      types := .ofList [(0, .i32), (1, .i32), (2, .i32), (3, .i32), (4, .i32), (6, .i32), (8, .i32)] }
  comments := false

private def stepNode (id : NodeId) : Node := ⟨id, Span.none⟩

/-- `y = y++ + (total + add(y))`. -/
private def stepExpr : Expr :=
  .assign (stepNode 0) (.name (stepNode 1) "y") none
    (.binary (stepNode 2) .add (.incDec (stepNode 3) (.name (stepNode 1) "y") true false)
      (.binary (stepNode 4) .add (.name (stepNode 5) "total")
        (.call (stepNode 6) (.name (stepNode 7) "add") [.name (stepNode 8) "y"])))

private def stepState : State :=
  { nextRegister := 1, registerNames := [(0, "y")], scopes := [[("y", .register 0 .i32)]] }

/-- A call answers with the sum of its arguments, and leaves it in the first field. -/
private def answerSum : Invoke Int32 := fun _ _ args fields ↦ (args.sum, Function.update fields 0 args.sum)

private def stepStore : Store Int32 where
  cells
    | .register _ => 3
    | .input _ => 0
    | .field i => if i = 0 then 10 else 0
  arguments := []
  calls := []

private def stepEnv : Env Int32 where
  vars
    | .localVar _ => 3
    | .parameter _ => 0
    | .field i => if i = 0 then 10 else 0
  calls := []

private theorem stepState_binding {name : String} {b : Binding}
    (h : binding? stepState.scopes name = some b) : name = "y" ∧ b = .register 0 .i32 := by
  by_cases hy : name = "y"
  · subst hy
    cases h
    exact ⟨rfl, rfl⟩
  · have hne : ("y" == name) = false := beq_eq_false_iff_ne.mpr (Ne.symm hy)
    simp [binding?, stepState, hne] at h

private theorem stepState_wellScoped : WellScoped stepState where
  below h := by
    obtain ⟨-, hb⟩ := stepState_binding h
    cases hb
    decide
  named h := by
    obtain ⟨-, hb⟩ := stepState_binding h
    cases hb
    decide
  distinct h h' := (stepState_binding h).1.trans (stepState_binding h').1.symm

private theorem names_y (id : NodeId) (h : stepContext.symbol? id = none)
    (hty : stepContext.typeOf id = .i32) :
    Names stepContext stepState.scopes (.name (stepNode id) "y") (.localVar "y") where
  resolved := by
    simp only [Context.named?, stepNode, h]
  value := by
    rw [Context.IsValue, show (Expr.name (stepNode id) "y").id = id from rfl, hty]
    rfl
  local_bound name hn := by
    cases hn
    rw [show (Expr.name (stepNode id) "y").id = id from rfl, hty]
    exact ⟨0, rfl⟩
  parameter_ty sym hsym _ := by
    rw [show (Expr.name (stepNode id) "y").id = id from rfl, h] at hsym
    cases hsym

private theorem names_total :
    Names stepContext stepState.scopes (.name (stepNode 5) "total") (.field 0) where
  resolved := rfl
  value := rfl
  local_bound _ h := nomatch h
  parameter_ty _ _ _ := by
    rename_i h hk
    cases h
    cases hk

private theorem stepExpr_supported : Supported stepContext stepState.scopes stepExpr :=
  .assign rfl (names_y 1 rfl rfl) (.binary rfl (.incDec rfl (names_y 1 rfl rfl) rfl)
    (.binary rfl (.name names_total) (.call rfl rfl rfl rfl rfl fun a ha ↦ by
      rw [List.mem_singleton.mp ha]
      exact .name (names_y 8 rfl rfl))))

private theorem stepStore_holds :
    Holds (wordMachine answerSum) stepContext stepState.scopes none stepStore stepEnv where
  cells {x c} hx _ := by
    cases x with
    | localVar name =>
      rw [cellOf] at hx
      split at hx <;> cases hx
      rfl
    | parameter i | field i =>
      cases hx
      rfl
  constants h := by
    cases (stepState_binding h).2
  calls := rfl
  arguments := rfl

/-- With 3 in `y` and 10 in `total`, the old `y` and the old `total` are added to what the call answers
for the new `y`. -/
theorem stepExpr_code_evaluates :
    ∃ v st' τ, (exprCode stepContext stepExpr).value none stepState = .ok v st' ∧
      (wordMachine answerSum).Reaches st'.code.toList 0 (0, stepStore) (st'.code.size, τ) ∧
      τ.cells (.register 0) = 17 ∧ τ.cells (.field 0) = 4 ∧ τ.calls = [(4, [4])] ∧
      (wordMachine answerSum).read τ v = 17 := by
  obtain ⟨v, st', part, hrun, hcode, -, -, -, heff⟩ :=
    exprCode_value_evaluates (words_implement answerSum) stepState_wellScoped stepExpr_supported
      (destination_none stepState)
  obtain ⟨τ, hreach, -, hholds, hread⟩ := heff stepStore stepEnv stepStore_holds
  rw [show stepState.code.toList = [] from rfl, List.nil_append] at hcode
  refine ⟨v, st', τ, hrun, ?_, ?_, ?_, ?_, ?_⟩
  · rw [hcode, ← Array.length_toList, hcode]
    exact hreach
  · exact hholds.cells (x := .localVar "y") rfl nofun
  · exact hholds.cells (x := .field 0) rfl nofun
  · exact hholds.calls
  · exact hread

end MethodCompiler
