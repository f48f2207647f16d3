import MethodCompiler.Module.Function
import MethodCompiler.Proofs.KeptFlow
import MethodCompiler.Proofs.TwinRuns

/-!
# Comments do not matter

A comment is put on whatever statement was emitted last, and statements are later merged, dropped and
rewritten. No step looks at a comment: each commutes with erasing them. So the code of a method is the
same with comments and without, up to the comments.
-/

namespace MethodCompiler

variable {ε α β γ : Type}

private theorem map_bind_except (x : Except ε α) (f : α → Except ε β) (g : β → γ) :
    (x >>= f).map g = x >>= fun a ↦ (f a).map g := by
  cases x <;> rfl

private theorem mapM_map_except {α' β' : Type} {φ : α → α'} {ψ : β → β'} {f : α → Except ε β}
    {f' : α' → Except ε β'} (h : ∀ a, f' (φ a) = (f a).map ψ) (l : List α) :
    (l.map φ).mapM f' = (l.mapM f).map (List.map ψ) := by
  induction l with
  | nil => rfl
  | cons a rest ih =>
    rw [List.map_cons, List.mapM_cons, List.mapM_cons, h, ih]
    cases f a with
    | error e => rfl
    | ok b => cases rest.mapM f <;> rfl

/-! ### Functions over virtual registers -/

namespace LoweredFunction

/-- The function without comments. -/
def bare (f : LoweredFunction) : LoweredFunction := { f with code := f.code.map Statement.bare }

/-- Functions with the same pool differ in comments only. -/
private theorem Like.bare_eq {k : Lowering.Setting} {f f' : LoweredFunction} (h : f.Like k f')
    (hloading : k.loading = .pooled) : f.bare = f'.bare := by
  have hoperand {pool : List Value} {a a' : Operand} (h : a.Loads k.loading pool a') : a = a' := by
    cases h with
    | same => rfl
    | entry hmixed =>
      rw [hloading] at hmixed
      cases hmixed
  have hstatement {pool : List Value} {s s' : Statement} (h : s.Like k pool s') : s.bare = s'.bare := by
    have hoperands : s.operands = s'.operands :=
      List.forall₂_eq_eq_eq ▸ h.operands.imp fun _ _ ↦ hoperand
    rw [Statement.bare, Statement.bare, h.op, hoperands, h.synthetic]
  have hcode : f.code.map Statement.bare = f'.code.map Statement.bare :=
    List.forall₂_eq_eq_eq ▸ List.forall₂_map_left_iff.mpr
      (List.forall₂_map_right_iff.mpr (h.code.imp fun _ _ ↦ hstatement))
  have hconstants : f.constants = f'.constants := by
    rw [h.constants, hloading]
    rfl
  rw [bare, hcode, h.rest, hconstants]
  rfl

end LoweredFunction

/-- The code of a method differs only in comments between the two values of the option. -/
private theorem lowerMethod_erased (m : Method) (symbols : SymbolTable) (o : Options)
    (functions : FunctionTable)
    (b b' : Bool) :
    (lowerMethod m symbols { o with comments := b } functions).1.map LoweredFunction.bare =
        (lowerMethod m symbols { o with comments := b' } functions).1.map LoweredFunction.bare ∧
      (lowerMethod m symbols { o with comments := b } functions).2 =
        (lowerMethod m symbols { o with comments := b' } functions).2 := by
  let k : Lowering.Setting :=
    { method := m, symbols, loading := .pooled, comments := b, comments' := b', allowed := fun _ _ ↦ True }
  obtain ⟨calls, -, ⟨f, f', hlike, hrun⟩ | ⟨e, hrun⟩⟩ := lowerIn_alike k rfl rfl rfl fun _ _ ↦ trivial
  · have hfirst : lowerMethod m symbols { o with comments := b } functions = _ := (hrun functions).1
    have hsecond : lowerMethod m symbols { o with comments := b' } functions = _ := (hrun functions).2
    rw [hfirst, hsecond]
    exact ⟨congrArg Except.ok (hlike.bare_eq rfl), rfl⟩
  · have hfirst : lowerMethod m symbols { o with comments := b } functions = _ := (hrun functions).1
    have hsecond : lowerMethod m symbols { o with comments := b' } functions = _ := (hrun functions).2
    rw [hfirst, hsecond]
    exact ⟨rfl, rfl⟩

/-! ### Region exits -/

private theorem keepsFlow_bare : KeepsFlow Statement.bare where
  op _ := rfl
  label? _ := rfl
  target? _ := rfl
  descriptor _ _ _ := rfl
  switchTargets _ _ := rfl

private theorem insertLeavesFrom_bare (t : RegionTracker) (labels : LabelTable)
    (before code : List Statement) :
    insertLeavesFrom t labels (before.map Statement.bare) (code.map Statement.bare) =
      (insertLeavesFrom t labels before code).map fun c ↦
        { c with statements := c.statements.map Statement.bare } := by
  induction code generalizing t labels before with
  | nil =>
    rw [List.map_nil, insertLeavesFrom, insertLeavesFrom, map_bind_except, ← List.map_reverse]
    rfl
  | cons s rest ih =>
    have hrest (t : RegionTracker) (labels : LabelTable) (n : Nat) :
        insertLeavesFrom t labels (s.bare :: (List.replicate n Statement.leave ++
          before.map Statement.bare)) (rest.map Statement.bare) =
        (insertLeavesFrom t labels (s :: (List.replicate n Statement.leave ++ before)) rest).map
          fun c ↦ { c with statements := c.statements.map Statement.bare } := by
      rw [← ih, List.map_cons, List.map_append, List.map_replicate]
      rfl
    simp only [List.map_cons, insertLeavesFrom, List.length_map, keepsFlow_bare.step, leavesBefore,
      keepsFlow_bare.length_takeWhile_leave, hrest, map_bind_except]
    rfl

private theorem withLeaves_bare (f : LoweredFunction) :
    f.bare.withLeaves = f.withLeaves.map LoweredFunction.bare := by
  have hinsert : insertLeaves f.bare.code = (insertLeaves f.code).map fun c ↦
      { c with statements := c.statements.map Statement.bare } := by
    rw [insertLeaves, insertLeaves, LoweredFunction.bare, keepsFlow_bare.labels, map_bind_except]
    congr 1
    funext labels
    exact insertLeavesFrom_bare {} labels [] f.code
  rw [LoweredFunction.withLeaves, LoweredFunction.withLeaves, hinsert]
  cases insertLeaves f.code <;> rfl

/-! ### Packing -/

private theorem gather_bare (uses defs : RegisterSet) (code : List Statement) :
    BlockFlow.gather uses defs (code.map Statement.bare) = BlockFlow.gather uses defs code := by
  induction code generalizing uses defs with
  | nil => rfl
  | cons s rest ih =>
    rw [List.map_cons, BlockFlow.gather, BlockFlow.gather, ih]
    rfl

private theorem liveness_bare (code : List Statement) (g : FlowGraph) :
    Liveness.compute (code.map Statement.bare) g = Liveness.compute code g := by
  have hblock (id : Nat) (block : Block) : BlockFlow.ofBlock g (code.map Statement.bare) id block =
      BlockFlow.ofBlock g code id block := by
    simp only [BlockFlow.ofBlock, Block.statements, ← List.map_drop, ← List.map_take, gather_bare]
  have hwritten : (code.map Statement.bare).flatMap Statement.writes = code.flatMap Statement.writes := by
    rw [List.flatMap_map]
    rfl
  simp only [Liveness.compute, hblock, hwritten]

private theorem walk_bare (limit : Nat) (ivs : List (Nat × Interval)) (f : SlotFile) (start : Nat)
    (code : List Statement) :
    SlotFile.walk limit ivs f start (code.map Statement.bare) = SlotFile.walk limit ivs f start code := by
  induction code generalizing f start with
  | nil => rfl
  | cons s rest ih =>
    simp only [List.map_cons, SlotFile.walk, ih]
    rfl

private theorem pack_bare (name : String) (code : List Statement) (g : FlowGraph) (limit : Nat) :
    pack name (code.map Statement.bare) g limit = pack name code g limit := by
  have htouches : Touch.ofCode (code.map Statement.bare) = Touch.ofCode code := by
    simp only [Touch.ofCode, List.zipIdx_map, List.flatMap_map]
    rfl
  simp only [pack, intervals, htouches, liveness_bare, walk_bare]

private theorem packCode_bare (name : String) (code : List Statement) (g : FlowGraph) (limit : Nat) :
    packCode name (code.map Statement.bare) g limit =
      ((packCode name code g limit).1, (packCode name code g limit).2.map Statement.bare) := by
  have happly (p : Packing) : p.apply (code.map Statement.bare) =
      (p.apply code).map Statement.bare := by
    simp only [Packing.apply, List.map_map]
    rfl
  rw [packCode, packCode, pack_bare]
  cases pack name code g limit with
  | error e => rfl
  | ok p => exact Prod.ext rfl (happly p)

/-! ### Final places -/

private theorem mergeNullifyFrom_bare (position : Nat) (last : Option (Statement × Option Nat))
    (code : List Statement) :
    mergeNullifyFrom position (last.map fun x ↦ (x.1.bare, x.2)) (code.map Statement.bare) =
      (mergeNullifyFrom position last code).map (List.map Statement.bare) := by
  induction code generalizing position last with
  | nil => cases last <;> rfl
  | cons s rest ih =>
    -- a statement that is not merged comes behind the one before it
    have hbehind (before : List Statement) (stop : Option Nat) : (do
        return before.map Statement.bare ++
          (← mergeNullifyFrom (position + 1) (some (s.bare, stop)) (rest.map Statement.bare))) =
        (do return before ++ (← mergeNullifyFrom (position + 1) (some (s, stop)) rest)).map
          (List.map Statement.bare) := by
      have hnext := ih (position + 1) (some (s, stop))
      rw [Option.map_some] at hnext
      rw [hnext]
      cases mergeNullifyFrom (position + 1) (some (s, stop)) rest with
      | error e => rfl
      | ok out => exact congrArg Except.ok (List.map_append).symm
    have hbefore : (last.map fun x ↦ (x.1.bare, x.2)).elim [] ([·.1]) =
        (last.elim [] ([·.1])).map Statement.bare := by
      cases last <;> rfl
    rw [List.map_cons, mergeNullifyFrom, mergeNullifyFrom, hbefore]
    show (if s.op == .nullify then _ else _) = _
    split
    · rw [show s.bare.clearedRange? = s.clearedRange? from rfl]
      cases s.clearedRange? with
      | error fault => rfl
      | ok range =>
        obtain ⟨first, stop⟩ := range
        rcases last with - | ⟨previous, - | previousStop⟩
        · exact hbehind [] (some stop)
        · exact hbehind [previous] (some stop)
        · simp only [Option.map_some]
          split
          · exact ih (position + 1) (some (previous.withLast (s.operands.getD 1 .null), some stop))
          · exact hbehind [previous] (some stop)
    · exact hbehind _ none

private theorem checkNullify_bare (position : Nat) (code : List Statement) :
    checkNullify position (code.map Statement.bare) = checkNullify position code := by
  induction code generalizing position with
  | nil => rfl
  | cons s rest ih =>
    simp only [List.map_cons, checkNullify, ih]
    rfl

/-- The placement without comments. -/
def Placement.bare (p : Placement) : Placement := { p with statements := p.statements.map Statement.bare }

private theorem ofCode_bare (strip : Bool) (next : Nat) (dead : Bool) (code : List Statement) :
    Placement.ofCode strip next dead (code.map Statement.bare) =
      (Placement.ofCode strip next dead code).bare := by
  induction code generalizing next dead with
  | nil => rfl
  | cons s rest ih =>
    simp only [List.map_cons, Placement.ofCode, ih, keepsFlow_bare.label?]
    cases s.label? with
    | some name => rfl
    | none =>
      show (if dead && (strip || s.synthetic) then _ else _) = _
      split <;> rfl

private theorem resolveOperand_bare (p : Placement) (op : Opcode) (position : Nat) :
    p.bare.resolveOperand op position = p.resolveOperand op position := by
  funext operand
  cases operand <;> rfl

private theorem resolveStatements_bare (p : Placement) :
    p.bare.resolveStatements = p.resolveStatements.map (List.map Statement.bare) := by
  unfold Placement.resolveStatements
  rw [show p.bare.statements = p.statements.map Statement.bare from rfl, List.zipIdx_map]
  refine mapM_map_except (fun x ↦ ?_) _
  obtain ⟨s, i⟩ := x
  simp only [Prod.map, id, resolveOperand_bare]
  show (s.operands.mapM (p.resolveOperand s.op i) >>= _) = _
  cases s.operands.mapM (p.resolveOperand s.op i) <;> rfl

private theorem place_bare (code : List Statement) (constants : List Value) (o : Options) :
    place (code.map Statement.bare) constants o = (place code constants o).map fun c ↦
      { c with statements := c.statements.map Statement.bare } := by
  have hmerged : mergeNullify (code.map Statement.bare) =
      (mergeNullify code).map (List.map Statement.bare) := mergeNullifyFrom_bare 0 none code
  have hplaced (code : List Statement) : (do
      let statements ← (Placement.ofCode o.stripUnreachable 0 false
        (code.map Statement.bare)).resolveStatements
      let constants ← constants.mapM (Placement.ofCode o.stripUnreachable 0 false
        (code.map Statement.bare)).resolveValue
      return (⟨statements, constants⟩ : PlacedCode)) = (do
      let statements ← (Placement.ofCode o.stripUnreachable 0 false code).resolveStatements
      let constants ← constants.mapM (Placement.ofCode o.stripUnreachable 0 false code).resolveValue
      return (⟨statements, constants⟩ : PlacedCode)).map fun (c : PlacedCode) ↦
        { c with statements := c.statements.map Statement.bare } := by
    rw [ofCode_bare]
    generalize Placement.ofCode o.stripUnreachable 0 false code = p
    have hconstants : constants.mapM p.bare.resolveValue = constants.mapM p.resolveValue := rfl
    rw [resolveStatements_bare, hconstants]
    cases p.resolveStatements with
    | error e => rfl
    | ok statements => cases constants.mapM p.resolveValue <;> rfl
  unfold place
  cases o.mergeNullify with
  | true =>
    simp only [if_true, hmerged]
    cases mergeNullify code with
    | error e => rfl
    | ok merged => exact hplaced merged
  | false =>
    simp only [Bool.false_eq_true, if_false, checkNullify_bare]
    cases checkNullify 0 code with
    | error e => rfl
    | ok => exact hplaced code

/-! ### Compiled functions -/

/-- The function without comments. -/
def CompiledFunction.bare (f : CompiledFunction) : CompiledFunction :=
  { f with statements := f.statements.map Statement.bare }

/-- A function is finished in the same way without its comments. -/
private theorem finish_bare (f : LoweredFunction) (o : Options) :
    f.bare.finish o = (f.finish o).map CompiledFunction.bare := by
  unfold LoweredFunction.finish
  rw [show f.bare.code = f.code.map Statement.bare from rfl, keepsFlow_bare.build]
  simp only [map_bind_except, packCode_bare, place_bare]
  refine congrArg _ (funext fun g ↦ congrArg _ (funext fun p ↦ ?_))
  show (place (packCode f.name f.code g o.maxRegisters).2 f.constants o).map _ >>= _ = _
  cases place (packCode f.name f.code g o.maxRegisters).2 f.constants o <;> rfl

/-- With comments and without, a method gives the same error, or functions that are equal but for their
comments, and the same functions are known after it. -/
theorem compiled_without_comments (m : Method) (symbols : SymbolTable) (o : Options)
    (functions : FunctionTable) :
    ((∃ e, (compileMethod m symbols { o with comments := true } functions).1 = .error e ∧
        (compileMethod m symbols { o with comments := false } functions).1 = .error e) ∨
      ∃ f g, (compileMethod m symbols { o with comments := true } functions).1 = .ok f ∧
        (compileMethod m symbols { o with comments := false } functions).1 = .ok g ∧
        f.bare = g.bare) ∧
    (compileMethod m symbols { o with comments := true } functions).2 =
      (compileMethod m symbols { o with comments := false } functions).2 := by
  obtain ⟨hlowered, hfunctions⟩ := lowerMethod_erased m symbols o functions true false
  have hcompiled (b : Bool) :
      (compileMethod m symbols { o with comments := b } functions).1.map CompiledFunction.bare =
        (((lowerMethod m symbols { o with comments := b } functions).1.map LoweredFunction.bare).bind
          (·.withLeaves)).bind (·.finish o) := by
    show (((lowerMethod m symbols { o with comments := b } functions).1.bind (·.withLeaves)).bind
      (·.finish o)).map CompiledFunction.bare = _
    cases (lowerMethod m symbols { o with comments := b } functions).1 with
    | error e => rfl
    | ok f =>
      show (f.withLeaves.bind (·.finish o)).map CompiledFunction.bare = f.bare.withLeaves.bind (·.finish o)
      rw [withLeaves_bare]
      cases f.withLeaves with
      | error e => rfl
      | ok f => exact (finish_bare f o).symm
  have hsame : (compileMethod m symbols { o with comments := true } functions).1.map
      CompiledFunction.bare =
      (compileMethod m symbols { o with comments := false } functions).1.map CompiledFunction.bare := by
    rw [hcompiled, hcompiled, hlowered]
  refine ⟨?_, hfunctions⟩
  generalize (compileMethod m symbols { o with comments := true } functions).1 = x,
    (compileMethod m symbols { o with comments := false } functions).1 = y at hsame ⊢
  cases x with
  | error e =>
    cases y with
    | error e' =>
      cases hsame
      exact .inl ⟨e, rfl, rfl⟩
    | ok g => cases hsame
  | ok f =>
    cases y with
    | error e => cases hsame
    | ok g => exact .inr ⟨f, g, rfl, rfl, Except.ok.inj hsame⟩

end MethodCompiler
