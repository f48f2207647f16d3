import MethodCompiler.Proofs.BranchTargets
import MethodCompiler.Proofs.OwnRegisters

/-!
# Thrown values and cleanup code

The leaves before a throw run the `finally` blocks of the regions that they leave, and the throw reads
its operand after that. An intermediate value is safe there, for its register is not written again. The
register of a local is not: the cleanup code may assign to the local.
-/

namespace MethodCompiler

variable {code : List Statement} {w : Walk code} {sealed : Bool} {pool : List Value}
  {stack : RegionStack} {id : RegionId} {phase : Phase} {s : Statement} {r i j : Nat}

private theorem mem_live : id ∈ live stack ↔ ∃ phase, (id, phase) ∈ stack ∧ phase ≠ .inFinally := by
  simp [live]

/-- The cleanup code of a region stands behind its other parts. -/
private theorem Walk.Shaped.lt_of_cleanup (h : w.Shaped sealed pool) (hi : i < code.length)
    (hj : j < code.length) (hx : (id, phase) ∈ w.stack i) (hphase : phase ≠ .inFinally)
    (hcleanup : (id, .inFinally) ∈ w.stack j) : i < j := by
  obtain ⟨r, first, last, -, hplaced, -, -⟩ := h.placedAt hi hx
  cases hl : r.finallyLabel with
  | none => exact absurd hcleanup (hplaced.no_cleanup hl j hj)
  | some l =>
    obtain ⟨k, -, -, -, -, hk⟩ := hplaced.cleanup l hl
    have hkj : k ≤ j := (hk j _ hj hcleanup).mp rfl
    have hik : ¬ k ≤ i := fun hle ↦ hphase ((hk i phase hi hx).mpr hle)
    omega

/-- A throw that leaves come before raises the value its operand had before the cleanup code that they
run, if that is an intermediate value: no `finally` block of a region that they leave writes its
register. -/
theorem thrown_temporary_kept {m : Method} {symbols : SymbolTable} {o : Options}
    {functions : FunctionTable} {f : LoweredFunction}
    (h : (lowerFunction m symbols o functions).1 = .ok f) :
    ∃ map, RegionMap.scan f.code = .ok map ∧
      ∀ p s r, f.code[p]? = some s → s.thrown? = some r → (∀ name, (r, name) ∉ f.registerNames) →
        ∀ id ∈ (live (map.openAt p)).take (leavesBefore (f.code.take p).reverse),
          ∀ q t, f.code[q]? = some t → (id, .inFinally) ∈ map.openAt q → r ∉ t.writes := by
  obtain ⟨lowered, hlowered, hleaves⟩ : ∃ lowered,
      (lowerMethod m symbols o functions).1 = .ok lowered ∧ lowered.withLeaves = .ok f :=
    bind_eq_ok.mp h
  have hwell : lowered.WellFormed false := wellFormed_of_lowerMethod hlowered nofun
  obtain ⟨w, labels, need, hw, rfl⟩ := hwell.exists_inserts hleaves
  obtain ⟨map, hscan, -, hopenAt⟩ := hw.leaving.pads.exists_openAt
  refine ⟨map, hscan, fun p s r hs hthrown hfree id hid q t ht hcleanup hwrites ↦ ?_⟩
  have hthrow : s.op ≠ .leave := by
    intro hop
    rw [Statement.thrown?_of_ne (by rw [hop]; decide)] at hthrown
    cases hthrown
  have hwriter : t.op ≠ .leave := by
    intro hop
    rw [Statement.writes_eq_nil (by rw [hop]; rfl)] at hwrites
    cases hwrites
  -- both statements are the method's own, so their order is that of the code before leaves
  obtain ⟨i, hi, rfl⟩ := exists_of_getElem?_padded hs hthrow
  obtain ⟨j, hj, rfl⟩ := exists_of_getElem?_padded ht hwriter
  obtain ⟨hi', rfl⟩ := List.getElem?_eq_some_iff.mp hi
  obtain ⟨hj', rfl⟩ := List.getElem?_eq_some_iff.mp hj
  rw [hopenAt hi'] at hid
  rw [hopenAt hj'] at hcleanup
  obtain ⟨phase, hx, hphase⟩ := mem_live.mp (List.mem_of_mem_take hid)
  have hij : i < j := hw.shaped.lt_of_cleanup hi' hj' hx hphase hcleanup
  have hpairs := List.pairwise_iff_getElem.mp (not_written_behind_throw hlowered) i j hi' hj' hij
  obtain ⟨name, hname⟩ | hfresh := hpairs r hthrown
  · exact hfree name hname
  · exact hfresh hwrites

/-- `int n = 0; try { try { throw new Fault(); } finally { n = 1; } } finally { n = 2; }` -/
private def failMethod : Method where
  index := 0
  name := "fail"
  isStatic := true
  params := []
  returnTy := .void
  body := .mk [
    .declare Span.none "n" .i32 (some (.literal ⟨1, Span.none⟩ (.int 0))) false,
    .tryCatch Span.none
      (.mk [.tryCatch Span.none
        (.mk [.throw Span.none (some (.new ⟨2, Span.none⟩ (.named "Fault") none []))] Span.none) []
        (some (.mk [.eval Span.none (.assign ⟨3, Span.none⟩ (.name ⟨4, Span.none⟩ "n") none
          (.literal ⟨5, Span.none⟩ (.int 1)))] Span.none))] Span.none) []
      (some (.mk [.eval Span.none (.assign ⟨6, Span.none⟩ (.name ⟨7, Span.none⟩ "n") none
        (.literal ⟨8, Span.none⟩ (.int 2)))] Span.none))] Span.none

private def failSymbols : SymbolTable where
  symbols := .ofList [(4, ⟨.localVar, "n", .i32, false, 0, false, false⟩),
    (7, ⟨.localVar, "n", .i32, false, 0, false, false⟩)]
  types := .ofList [(1, .i32), (2, .named "Fault"), (3, .i32), (4, .i32), (5, .i32), (6, .i32),
    (7, .i32), (8, .i32)]

/-- The throw leaves both regions. Each `finally` block writes the register of the local, and neither
writes that of the new object. -/
theorem fail_thrown_kept : ∃ f map, (lowerFunction failMethod failSymbols {} .empty).1 = .ok f ∧
    RegionMap.scan f.code = .ok map ∧ f.registerNames = [(0, "n")] ∧
    (∃ s : Statement, f.code[6]? = some s ∧ s.thrown? = some 1 ∧
      (live (map.openAt 6)).take (leavesBefore (f.code.take 6).reverse) = [1, 0]) ∧
    (∃ t : Statement, f.code[8]? = some t ∧ (1, .inFinally) ∈ map.openAt 8 ∧ t.writes = [0]) ∧
    (∃ t : Statement, f.code[14]? = some t ∧ (0, .inFinally) ∈ map.openAt 14 ∧ t.writes = [0]) ∧
    ∀ id ∈ [1, 0], ∀ q t, f.code[q]? = some t → (id, .inFinally) ∈ map.openAt q → 1 ∉ t.writes := by
  have hcheck : ((lowerFunction failMethod failSymbols {} .empty).1.toOption.any fun f ↦
      (RegionMap.scan f.code).toOption.any fun map ↦
        decide (f.registerNames = [(0, "n")]) &&
        f.code[6]?.any (fun s : Statement ↦ decide (s.thrown? = some 1 ∧
          (live (map.openAt 6)).take (leavesBefore (f.code.take 6).reverse) = [1, 0])) &&
        f.code[8]?.any (fun t : Statement ↦ decide ((1, .inFinally) ∈ map.openAt 8 ∧ t.writes = [0])) &&
        f.code[14]?.any fun t : Statement ↦
          decide ((0, .inFinally) ∈ map.openAt 14 ∧ t.writes = [0])) = true := by
    decide +kernel
  obtain ⟨f, hf, hcheck⟩ := any_toOption.mp hcheck
  obtain ⟨map, hmap, hcheck⟩ := any_toOption.mp hcheck
  simp only [Bool.and_eq_true, Option.any_eq_true, decide_eq_true_eq] at hcheck
  obtain ⟨⟨⟨hnames, s, hs, hthrown, hleft⟩, hinner⟩, houter⟩ := hcheck
  obtain ⟨map', hscan, hkept⟩ := thrown_temporary_kept hf
  obtain rfl := Except.ok.inj (hscan.symm.trans hmap)
  refine ⟨f, _, hf, hscan, hnames, ⟨s, hs, hthrown, hleft⟩, hinner, houter, ?_⟩
  have hfree : ∀ name, (1, name) ∉ f.registerNames := by
    intro name
    simp [hnames]
  rw [← hleft]
  exact hkept 6 s 1 hs hthrown hfree

/-! ### A local that cleanup code assigns to -/

/-- `object e = first; try { throw e; } finally { e = second; }` -/
private def overwriteMethod : Method where
  index := 0
  name := "overwrite"
  isStatic := true
  params := [{ name := "first", ty := .object }, { name := "second", ty := .object }]
  returnTy := .void
  body := .mk [
    .declare Span.none "e" .object (some (.name ⟨0, Span.none⟩ "first")) false,
    .tryCatch Span.none (.mk [.throw Span.none (some (.name ⟨1, Span.none⟩ "e"))] Span.none) []
      (some (.mk [.eval Span.none (.assign ⟨2, Span.none⟩ (.name ⟨3, Span.none⟩ "e") none
        (.name ⟨4, Span.none⟩ "second"))] Span.none))] Span.none

private def overwriteSymbols : SymbolTable where
  symbols := .ofList [(0, ⟨.parameter, "first", .object, false, 0, false, false⟩),
    (1, ⟨.localVar, "e", .object, false, 0, false, false⟩),
    (3, ⟨.localVar, "e", .object, false, 0, false, false⟩),
    (4, ⟨.parameter, "second", .object, false, 1, false, false⟩)]
  types := .ofList [(0, .object), (1, .object), (2, .object), (3, .object), (4, .object)]

/-- The leave before the throw runs a `finally` block that writes the register to be thrown. -/
theorem thrown_local_overwritten :
    ∃ f map, (lowerFunction overwriteMethod overwriteSymbols {} .empty).1 = .ok f ∧
      RegionMap.scan f.code = .ok map ∧
      (∃ s : Statement, f.code[3]? = some s ∧ s.thrown? = some 0 ∧
        (live (map.openAt 3)).take (leavesBefore (f.code.take 3).reverse) = [0]) ∧
      ∃ t : Statement, f.code[5]? = some t ∧ (0, .inFinally) ∈ map.openAt 5 ∧ 0 ∈ t.writes := by
  have hcheck : ((lowerFunction overwriteMethod overwriteSymbols {} .empty).1.toOption.any fun f ↦
      (RegionMap.scan f.code).toOption.any fun map ↦
        f.code[3]?.any (fun s : Statement ↦ decide (s.thrown? = some 0 ∧
          (live (map.openAt 3)).take (leavesBefore (f.code.take 3).reverse) = [0])) &&
        f.code[5]?.any fun t : Statement ↦
          decide ((0, .inFinally) ∈ map.openAt 5 ∧ 0 ∈ t.writes)) = true := by
    decide +kernel
  obtain ⟨f, hf, hcheck⟩ := any_toOption.mp hcheck
  obtain ⟨map, hmap, hcheck⟩ := any_toOption.mp hcheck
  simp only [Bool.and_eq_true, Option.any_eq_true, decide_eq_true_eq] at hcheck
  exact ⟨f, map, hf, hmap, hcheck.1, hcheck.2⟩

end MethodCompiler
