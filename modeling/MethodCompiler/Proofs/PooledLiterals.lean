import MethodCompiler.Proofs.SignedZeros
import MethodCompiler.Proofs.TwinRuns

/-!
# Literals in the pool

The code of a method loads its literals from the pool as it would have them in place. Equal literals share
an entry, so that the entry of a literal may be the value of another one: it has the same types and the
same items, and may only have other signs on its zeros.
-/

namespace MethodCompiler

/-- The code of a method with its literals in place. -/
def inlineMethod (m : Method) (symbols : SymbolTable) (o : Options) (functions : FunctionTable) :
    Except Error LoweredFunction × FunctionTable :=
  Lowering.lowerIn { method := m, symbols, comments := o.comments, inPlace := true } functions

/-! ### Operands and statements -/

/-- Two operands are the same, or the one is an array or a table in place and the other loads it from the
pool. The entry may have other signs on its zeros. -/
inductive Operand.PooledAs (pool : List Value) : Operand → Operand → Prop
  | same {a : Operand} : a.isPooled = false → PooledAs pool a a
  | entry {k : Nat} {v w : Value} : v.isAggregate = true → pool[k]? = some w →
      w.plainZeros = v.plainZeros → PooledAs pool (.immediate v) (.constant k)

/-- The operands stand for the same values, and nothing else differs. -/
structure Statement.PooledAs (pool : List Value) (s s' : Statement) : Prop where
  op : s.op = s'.op
  operands : List.Forall₂ (Operand.PooledAs pool) s.operands s'.operands
  comment : s.comment = s'.comment
  synthetic : s.synthetic = s'.synthetic

/-- The operand with what it loads from the pool in place. -/
def Operand.inline (pool : List Value) : Operand → Operand
  | .constant k => pool[k]?.elim (.constant k) .immediate
  | operand => operand

/-- The statement with what it loads from the pool in place. -/
def Statement.inline (pool : List Value) (s : Statement) : Statement :=
  { s with operands := s.operands.map (·.inline pool) }

/-- The operand is an array or a table, in place, that holds a floating-point zero. -/
def Operand.holdsZero : Operand → Bool
  | .immediate v => v.isAggregate && v.hasZero
  | _ => false

variable {pool : List Value} {a a' : Operand} {s s' : Statement}

private theorem Statement.Like.pooledAs {k : Lowering.Setting} (h : s.Like k pool s')
    (hloading : k.loading = .mixed)
    (hcomments : k.comments = k.comments') : s.PooledAs pool s' := by
  refine ⟨h.op, h.operands.imp fun a a' ha ↦ ?_, h.comment hcomments, h.synthetic⟩
  cases ha with
  | same hsame => exact .same (hsame hloading)
  | entry _ hv hi hu =>
    refine .entry hv hi ?_
    obtain rfl | hsame := hu
    · rfl
    · exact Value.plainZeros_eq_of_same hsame

/-- An array or a table without zeros has itself as its entry. -/
private theorem Operand.PooledAs.inline_eq (h : a.PooledAs pool a') (hzero : a.holdsZero = false) :
    a'.inline pool = a := by
  cases h with
  | same hsame =>
    cases a with
    | constant k => cases hsame
    | _ => rfl
  | @entry k v w hv hk hzeros =>
    rw [Operand.holdsZero, hv, Bool.true_and] at hzero
    rw [Operand.inline, hk, Value.eq_of_plainZeros_eq hzero hzeros]
    rfl

private theorem Statement.PooledAs.inline_eq (h : s.PooledAs pool s')
    (hzero : ∀ a ∈ s.operands, a.holdsZero = false) : s'.inline pool = s := by
  have hoperands : s'.operands.map (·.inline pool) = s.operands := by
    have hrel := h.operands
    generalize s.operands = operands, s'.operands = operands' at hrel hzero
    induction hrel with
    | nil => rfl
    | cons ha _ ih =>
      rw [List.forall_mem_cons] at hzero
      rw [List.map_cons, ha.inline_eq hzero.1, ih hzero.2]
  obtain ⟨op, operands, comment, synthetic⟩ := s
  obtain ⟨op', operands', comment', synthetic'⟩ := s'
  obtain ⟨rfl, -, rfl, rfl⟩ := h
  rw [Statement.inline, hoperands]

/-- A method that is lowered could also be lowered with its literals in place, and statement by statement
the two differ in nothing but the operands that load a literal. The entry that is loaded is the value of
the literal by itself up to the signs of zeros, and that value where it has no zeros. -/
theorem loads_literals {m : Method} {symbols : SymbolTable} {o : Options} {functions : FunctionTable}
    {f : LoweredFunction} (h : (lowerMethod m symbols o functions).1 = .ok f) :
    ∃ g, inlineMethod m symbols o functions = (.ok g, (lowerMethod m symbols o functions).2) ∧
      g = { f with code := g.code, constants := [] } ∧
      List.Forall₂ (Statement.PooledAs f.constants) g.code f.code ∧
      ∀ (i : Nat) s, g.code[i]? = some s → (∀ a ∈ s.operands, a.holdsZero = false) →
        f.code[i]?.map (·.inline f.constants) = some s := by
  let k : Lowering.Setting :=
    { method := m, symbols, loading := .mixed, comments := o.comments, comments' := o.comments
      allowed := fun _ _ ↦ True }
  obtain ⟨calls, -, ⟨g, f', hlike, hrun⟩ | ⟨e, hrun⟩⟩ := lowerIn_alike k rfl rfl rfl fun _ _ ↦ trivial
  · have hlower : lowerMethod m symbols o functions = (.ok f', _) := (hrun functions).2
    have hinline : inlineMethod m symbols o functions = (.ok g, _) := (hrun functions).1
    rw [hlower] at h ⊢
    cases h
    have hcode : List.Forall₂ (Statement.PooledAs f.constants) g.code f.code :=
      hlike.code.imp fun _ _ hs ↦ hs.pooledAs rfl rfl
    have hconstants : g.constants = [] := hlike.constants.trans (if_pos rfl)
    refine ⟨g, hinline, ?_, hcode, fun i s hs hzero ↦ ?_⟩
    · rw [← hconstants]
      exact hlike.rest
    · obtain ⟨s', hs', hpooled⟩ := exists_of_forall₂ hcode hs
      exact (congrArg _ hs').trans (congrArg some (hpooled.inline_eq hzero))
  · have hlower : lowerMethod m symbols o functions = (.error e, _) := (hrun functions).2
    rw [hlower] at h
    cases h

/-- A method that declares a local for each of some arrays. -/
private def arraysMethod (arrays : List (Ty × List Literal)) : Method where
  index := 0
  name := "F"
  owner := "C"
  isStatic := true
  params := []
  returnTy := .void
  body := .mk (arrays.map fun x ↦ .declare Span.none "xs" (.array x.1)
    (some (.arrayLiteral ⟨0, Span.none⟩ x.1 (x.2.map (.literal ⟨1, Span.none⟩)))) false) Span.none

/-- `int[] xs = {1, 2}; int[] xs = {1, 2}; double[] xs = {0.0}; double[] xs = {-0.0};` -/
private def sharedMethod : Method :=
  arraysMethod [(.i32, [.int 1, .int 2]), (.i32, [.int 1, .int 2]), (.f64, [.float 0]),
    (.f64, [.float (-0.0)])]

/-- The second array of integers loads the entry of the first one, which is its own value. -/
theorem shared_loads_literals : ∃ f g, (lowerMethod sharedMethod {} {} .empty).1 = .ok f ∧
    (inlineMethod sharedMethod {} {} .empty).1 = .ok g ∧
    f.constants.map Value.text = ["[1, 2]", "[f64 0]"] ∧
    List.Forall₂ (Statement.PooledAs f.constants) g.code f.code ∧
    ∃ s : Statement, g.code[1]? = some s ∧ s.text = "reref #r1, [1, 2]" ∧
      f.code[1]?.map (·.inline f.constants) = some s := by
  have hcheck : ((lowerMethod sharedMethod {} {} .empty).1.toOption.any fun f ↦
      decide (f.constants.map Value.text = ["[1, 2]", "[f64 0]"])) = true := by
    decide +kernel
  obtain ⟨f, hf, hconstants⟩ := any_toOption.mp hcheck
  obtain ⟨g, hg, -, hcode, hexact⟩ := loads_literals hf
  have hcheck : ((inlineMethod sharedMethod {} {} .empty).1.toOption.any fun g ↦
      g.code[1]?.any fun s : Statement ↦ decide (s.text = "reref #r1, [1, 2]") &&
        s.operands.all fun a ↦ !a.holdsZero) = true := by
    decide +kernel
  rw [hg] at hcheck
  obtain ⟨s, hs, hcheck⟩ := (Option.any_eq_true _ g.code[1]?).mp hcheck
  obtain ⟨htext, hzero⟩ := (Bool.and_eq_true _ _).mp hcheck
  refine ⟨f, g, hf, congrArg Prod.fst hg, of_decide_eq_true hconstants, hcode, s, hs,
    of_decide_eq_true htext, hexact 1 s hs fun a ha ↦ ?_⟩
  simpa using List.all_eq_true.mp hzero a ha

/-- `double[] xs = {0.0}; double[] xs = {-0.0};` -/
private def signedMethod : Method := arraysMethod [(.f64, [.float 0]), (.f64, [.float (-0.0)])]

/-- The literal with the negative zero loads the entry of the other one, whose zero is positive. -/
theorem negative_zero_loads_positive : ∃ f g, (lowerMethod signedMethod {} {} .empty).1 = .ok f ∧
    (inlineMethod signedMethod {} {} .empty).1 = .ok g ∧
    g.code[1]?.map Statement.text = some "reref #r1, [f64 -0]" ∧
    f.code[1]?.map Statement.text = some "reref #r1, c0" ∧
    f.constants.map Value.text = ["[f64 0]"] := by
  have hpooled : ((lowerMethod signedMethod {} {} .empty).1.toOption.any fun f ↦
      decide (f.code[1]?.map Statement.text = some "reref #r1, c0" ∧
        f.constants.map Value.text = ["[f64 0]"])) = true := by
    decide +kernel
  have hinline : ((inlineMethod signedMethod {} {} .empty).1.toOption.any fun g ↦
      decide (g.code[1]?.map Statement.text = some "reref #r1, [f64 -0]")) = true := by
    decide +kernel
  obtain ⟨f, hf, hpooled⟩ := any_toOption.mp hpooled
  obtain ⟨g, hg, hinline⟩ := any_toOption.mp hinline
  exact ⟨f, g, hf, hg, of_decide_eq_true hinline, of_decide_eq_true hpooled⟩

end MethodCompiler
