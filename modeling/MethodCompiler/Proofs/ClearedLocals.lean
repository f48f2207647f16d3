import MethodCompiler.Proofs.EnclosedLocals

/-!
# Locals are cleared on the way out

A path through code goes on to the next statement, or by a jump or a branch to a label. Where a path has
come out of a scope, the last statement of the scope on it that touches the register of a local is the one
that clears it. Returning and throwing are not on such paths.
-/

namespace MethodCompiler

/-! ### Paths -/

/-- Control goes from one position of the code to another, neither by a return nor by an exception. -/
def FlowsTo (pool : List Value) (code : List Statement) (p q : Nat) : Prop :=
  ∃ s ∈ code[p]?, q = p + 1 ∧ s.op.isUnconditionalExit = false ∨
    ∃ l ∈ s.exits pool, labelAt? code q = some l

instance (pool : List Value) (code : List Statement) : DecidableRel (FlowsTo pool code) := fun p q ↦
  inferInstanceAs (Decidable (∃ s ∈ code[p]?, q = p + 1 ∧ s.op.isUnconditionalExit = false ∨
    ∃ l ∈ s.exits pool, labelAt? code q = some l))

/-- The statement at the position touches the register. -/
def touchesAt (code : List Statement) (r p : Nat) : Bool := code[p]?.any (r ∈ ·.registers)

namespace ScopeSpan

/-- The position belongs to the code of the scope. -/
def covers (span : ScopeSpan) (p : Nat) : Bool := span.first ≤ p && p < span.last

/-- The last position of a path at which the code of the scope touches the register. -/
def lastTouch? (span : ScopeSpan) (code : List Statement) (r : Nat) (path : List Nat) : Option Nat :=
  path.findRev? fun p ↦ span.covers p && touchesAt code r p

end ScopeSpan

/-- The scopes of a method, with the places of their code and the registers of their locals. -/
def lexicalScopes (m : Method) (symbols : SymbolTable) (o : Options) (functions : FunctionTable) :
    List ScopeSpan :=
  (Lowering.lowerMethodBody { method := m, symbols, comments := o.comments } : Lowering.Recorded Unit).closed
    { functions }

variable {pool : List Value} {code before b after : List Statement} {s : Statement}
  {r e p q k : Nat}

private theorem FlowsTo.map_bare (h : FlowsTo pool code p q) :
    FlowsTo pool (code.map Statement.bare) p q := by
  obtain ⟨s, hs, h⟩ := h
  refine ⟨s.bare, ?_, h.imp_right ?_⟩
  · rw [Option.mem_def] at hs
    rw [Option.mem_def, List.getElem?_map, hs, Option.map_some]
  · rintro ⟨l, hl, hq⟩
    refine ⟨l, hl, ?_⟩
    rw [labelAt?, List.getElem?_map, Option.bind_map]
    exact hq

private theorem touchesAt_eq_true : touchesAt code r p = true ↔ ∃ s, code[p]? = some s ∧ r ∈ s.registers := by
  rw [touchesAt]
  cases code[p]? <;> simp

private theorem touchesAt_map_bare : touchesAt (code.map Statement.bare) r p = touchesAt code r p := by
  rw [touchesAt, touchesAt, List.getElem?_map, Option.any_map]
  rfl

private theorem ScopeSpan.lastTouch?_map_bare {span : ScopeSpan} {path : List Nat} :
    span.lastTouch? (code.map Statement.bare) r path = span.lastTouch? code r path := by
  simp only [lastTouch?, touchesAt_map_bare]

/-! ### Statements after which a register has to be cleared -/

private theorem Statement.Clears.registers_eq {first last : Nat} (h : s.Clears first last) :
    s.registers = [first, last] := by
  obtain ⟨ty, ty', hoperands⟩ := h.operands
  simp [registers, accesses, hoperands, accessAt]

/-- The statement touches the register without clearing it, or control can come to it from elsewhere. -/
def Statement.Unsettles (r : Nat) (s : Statement) : Prop :=
  s.op = .label ∨ r ∈ s.registers ∧ ¬ s.Clears r r

private theorem Statement.Unsettles.not_clears (h : s.Unsettles r) : ¬ s.Clears q q := by
  intro hclears
  rcases h with hop | ⟨hmem, hnot⟩
  · cases hclears.op.symm.trans hop
  · rw [hclears.registers_eq] at hmem
    obtain rfl : r = q := by simpa using hmem
    exact hnot hclears

/-- Up to the position the register has not been touched since a statement that unsettles it. -/
def Unsettled (r : Nat) (b : List Statement) (p : Nat) : Prop :=
  ∃ e s, e ≤ p ∧ p < b.length ∧ b[e]? = some s ∧ s.Unsettles r ∧
    ∀ j, e < j → j ≤ p → touchesAt b r j = false

private theorem not_endsCleared_take (he : b[e]? = some s) (hs : s.Unsettles r) (hlt : e < k)
    (huntouched : ∀ j, e < j → j < k → touchesAt b r j = false) : ¬ EndsCleared r (b.take k) := by
  rintro ⟨clears, ⟨front, hfront⟩, hall, t, ht, hclears⟩
  have hget (i : Nat) (hi : front.length + i < k) : b[front.length + i]? = clears[i]? := by
    rw [← List.getElem?_take_of_lt hi, ← hfront, List.getElem?_append_right (Nat.le_add_right _ _),
      Nat.add_sub_cancel_left]
  obtain ⟨i, hi⟩ := List.getElem?_of_mem ht
  have hik : front.length + i < k := by
    have hlength := congrArg List.length hfront
    have := (List.getElem?_eq_some_iff.mp hi).1
    rw [List.length_append, List.length_take] at hlength
    omega
  rcases Nat.lt_or_ge e (front.length + i) with hei | hei
  · have := huntouched _ hei hik
    rw [touchesAt, hget i hik, hi, Option.any_some, hclears.registers_eq] at this
    simp at this
  · -- the statement itself is among those that clear registers
    obtain ⟨j, rfl⟩ := Nat.exists_eq_add_of_le (Nat.le_trans (Nat.le_add_right _ i) hei)
    rw [hget j hlt] at he
    obtain ⟨q, hq⟩ := hall s (List.mem_of_getElem? he)
    exact hs.not_clears hq

namespace Confined

variable {start : Nat}

/-- Where the register is unsettled, control does not leave the code in one step. -/
private theorem step (h : Confined pool r b) (hat : CodeAt code start b) (hd : (labelsOf code).Nodup)
    (hp : Unsettled r b p) (hflow : FlowsTo pool code (start + p) q)
    (huntouched : start ≤ q → q < start + b.length → touchesAt code r q = false) :
    ∃ p', q = start + p' ∧ Unsettled r b p' := by
  obtain ⟨e, s, hep, hlt, he, hs, hsince⟩ := hp
  obtain ⟨t, ht, hflow⟩ := hflow
  rw [hat p hlt, Option.mem_def] at ht
  rcases hflow with ⟨rfl, hexit⟩ | ⟨l, hl, hq⟩
  · have hsince' : ∀ j, e < j → j < p + 1 → touchesAt b r j = false :=
      fun j hj hjp ↦ hsince j hj (Nat.le_of_lt_succ hjp)
    have hnext : p + 1 < b.length := by
      by_contra hend
      have hlength : b.length = p + 1 := by omega
      rcases h.atEnd with rfl | hclosed | hcleared
      · cases hlt
      · rw [Closed, List.getLast?_eq_getElem?, hlength, Nat.add_sub_cancel, ht] at hclosed
        cases hexit.symm.trans hclosed
      · refine not_endsCleared_take he hs (Nat.lt_succ_of_le hep) hsince' ?_
        rwa [List.take_of_length_le (Nat.le_of_eq hlength)]
    refine ⟨p + 1, rfl, e, s, Nat.le_succ_of_le hep, hnext, he, hs, fun j hj hjp ↦ ?_⟩
    rcases Nat.lt_or_eq_of_le hjp with hjp | rfl
    · exact hsince' j hj hjp
    · rw [touchesAt, ← hat _ hnext]
      exact huntouched (by omega) (by omega)
  · rcases h.jumps p t ht l hl with hmem | ⟨rfl, hcleared⟩
    · -- the label stands in one place, so it is reached there
      obtain ⟨t', ht', hlabel⟩ := List.mem_filterMap.mp hmem
      obtain ⟨p', hp'⟩ := List.getElem?_of_mem ht'
      have hlt' := (List.getElem?_eq_some_iff.mp hp').1
      have hfound : labelAt? code (start + p') = some l := by
        rw [labelAt?, hat p' hlt', hp']
        exact hlabel
      refine ⟨p', labelAt?_inj hd hq hfound, p', t', Nat.le_refl _, hlt', hp',
        .inl (Statement.op_of_label? hlabel), fun j hj hjp ↦ absurd hjp (Nat.not_le_of_lt hj)⟩
    · -- a jump to a label outside touches nothing itself
      have hne : e ≠ p := by
        rintro rfl
        cases he.symm.trans ht
        rcases hs with hop | ⟨hmem, -⟩
        · cases hop
        · cases hmem
      exact absurd hcleared (not_endsCleared_take he hs (Nat.lt_of_le_of_ne hep hne)
        fun j hj hjp ↦ hsince j hj (Nat.le_of_lt hjp))

/-- Where the register is unsettled and never touched again, control does not leave the code. -/
private theorem run (h : Confined pool r b) (hat : CodeAt code start b) (hd : (labelsOf code).Nodup)
    {path : List Nat} (hp : Unsettled r b p)
    (hpath : ((start + p) :: path).IsChain (FlowsTo pool code))
    (huntouched : ∀ q ∈ path, start ≤ q → q < start + b.length → touchesAt code r q = false) :
    ∀ q ∈ (start + p) :: path, start ≤ q ∧ q < start + b.length := by
  induction path generalizing p with
  | nil =>
    obtain ⟨-, -, -, hlt, -⟩ := hp
    exact List.forall_mem_singleton.mpr ⟨Nat.le_add_right _ _, Nat.add_lt_add_left hlt start⟩
  | cons q path ih =>
    obtain ⟨hflow, hpath⟩ := List.isChain_cons_cons.mp hpath
    obtain ⟨hnext, hlater⟩ := List.forall_mem_cons.mp huntouched
    obtain ⟨p', rfl, hp'⟩ := h.step hat hd hp hflow hnext
    obtain ⟨-, -, -, hlt, -⟩ := hp
    exact List.forall_mem_cons.mpr ⟨⟨Nat.le_add_right _ _, Nat.add_lt_add_left hlt start⟩,
      ih hp' hpath hlater⟩

end Confined

/-- On a path that ends outside of a scope, the last statement of the scope that touches the register of a
local clears it. -/
theorem ScopeSpan.Safe.clears_of_lastTouch? {span : ScopeSpan} (h : span.Safe pool code)
    (hd : (labelsOf code).Nodup) (hr : r ∈ span.registers) {path : List Nat}
    (hpath : path.IsChain (FlowsTo pool code)) (hout : ∃ q ∈ path.getLast?, span.covers q = false)
    (hlast : span.lastTouch? code r path = some p) : ∃ s, code[p]? = some s ∧ s.Clears r r := by
  obtain ⟨before, a, b, after, rfl, hfirst, hend, huntouched, hconfined⟩ := h r hr
  have hat : CodeAt (before ++ (a ++ (b ++ after))) (before.length + a.length) b := by
    have hat := (CodeAt.refl (before ++ (a ++ (b ++ after)))).right.right.left
    rwa [Nat.zero_add] at hat
  rw [lastTouch?, List.findRev?_eq_find?_reverse, List.find?_eq_some_iff_append] at hlast
  obtain ⟨hp, later, earlier, hsplit, hlater⟩ := hlast
  rw [Bool.and_eq_true, covers, Bool.and_eq_true, decide_eq_true_eq, decide_eq_true_eq] at hp
  obtain ⟨⟨hlo, hhi⟩, htouch⟩ := hp
  obtain ⟨s, hs, hmem⟩ := touchesAt_eq_true.mp htouch
  obtain ⟨i, rfl⟩ : ∃ i, p = before.length + a.length + i := by
    refine Nat.exists_eq_add_of_le (Nat.le_of_not_lt fun hlt ↦ ?_)
    rw [List.getElem?_append_right (by omega), List.getElem?_append_left (by omega)] at hs
    exact huntouched s (List.mem_of_getElem? hs) hmem
  have hi : i < b.length := by omega
  by_contra hnot
  have hunsettled : Unsettled r b i :=
    ⟨i, s, Nat.le_refl i, hi, (hat i hi).symm.trans hs, .inr ⟨hmem, fun h ↦ hnot ⟨s, hs, h⟩⟩,
      fun j hj hji ↦ absurd hji (Nat.not_le_of_lt hj)⟩
  have hrest : path = earlier.reverse ++ (before.length + a.length + i) :: later.reverse := by
    rw [← path.reverse_reverse, hsplit, List.reverse_append, List.reverse_cons, List.append_assoc]
    rfl
  have hinside := hconfined.run hat hd hunsettled (hrest ▸ hpath).right_of_append fun q hq hlo hhi ↦ by
    have hfree := hlater q (List.mem_reverse.mp hq)
    have hcovers : span.covers q = true := by
      rw [covers, decide_eq_true (by omega), decide_eq_true (by omega), Bool.and_self]
    rwa [hcovers, Bool.true_and, Bool.not_eq_true'] at hfree
  obtain ⟨q, hq, hout⟩ := hout
  rw [hrest, List.getLast?_append_of_ne_nil _ (List.cons_ne_nil _ _)] at hq
  obtain ⟨hqlo, hqhi⟩ := hinside q (List.mem_of_getLast? hq)
  rw [covers, decide_eq_true (by omega), decide_eq_true (by omega)] at hout
  cases hout

/-- The registers that a method gives to locals are those of its scopes. Along every path through its code
that ends outside of a scope, the last statement of the scope that touches the register of one of its
locals clears this register. -/
theorem locals_cleared_on_exit {m : Method} {symbols : SymbolTable} {o : Options} {t : FunctionTable}
    {f : LoweredFunction} (h : (lowerMethod m symbols o t).1 = .ok f) :
    (∀ r, (∃ name, (r, name) ∈ f.registerNames) ↔
      ∃ span ∈ lexicalScopes m symbols o t, r ∈ span.registers) ∧
    ∀ span ∈ lexicalScopes m symbols o t, ∀ r ∈ span.registers, ∀ path : List Nat,
      path.IsChain (FlowsTo f.constants f.code) → (∃ q ∈ path.getLast?, span.covers q = false) →
      ∀ p, span.lastTouch? f.code r path = some p → ∃ s, f.code[p]? = some s ∧ s.Clears r r := by
  have hwell : f.WellFormed false := wellFormed_of_lowerMethod h (by rintro ⟨⟩)
  have hd := hwell.nodup_labelsOf
  obtain ⟨st, rfl, hrun⟩ := exists_of_lowerMethod h
  obtain ⟨hnames, hsafe⟩ := Lowering.names_safe_lowerMethodBody rfl hrun
  refine ⟨fun r ↦ (hnames r).trans List.mem_flatMap, fun span hspan r hr path hpath hout p hp ↦ ?_⟩
  rw [← labelsOf_map_bare] at hd
  have hp : span.lastTouch? st.bare r path = some p := ScopeSpan.lastTouch?_map_bare.trans hp
  obtain ⟨s, hs, hclears⟩ := (hsafe span hspan).clears_of_lastTouch? hd hr
    (hpath.imp fun _ _ ↦ FlowsTo.map_bare) hout hp
  rw [Lowering.State.bare, List.getElem?_map] at hs
  obtain ⟨s, hs', rfl⟩ := Option.map_eq_some_iff.mp hs
  exact ⟨s, hs', hclears.op, hclears.operands, hclears.ascending⟩

/-- `while (busy) { int n = 1; switch (n) { case 1: int k = n; continue; } }` -/
private def pollMethod : Method where
  index := 0
  name := "poll"
  isStatic := true
  params := [{ name := "busy", ty := .bool }]
  returnTy := .void
  body := .mk [.whileLoop Span.none (.name ⟨0, Span.none⟩ "busy") (.block Span.none (.mk
    [.declare Span.none "n" .i32 (some (.literal ⟨1, Span.none⟩ (.int 1))) false,
      .switch Span.none (.name ⟨2, Span.none⟩ "n") [.mk [.case (.int 1)]
        [.declare Span.none "k" .i32 (some (.name ⟨3, Span.none⟩ "n")) false,
          .continueLoop Span.none]]] Span.none))] Span.none

private def pollSymbols : SymbolTable where
  symbols := .ofList [(0, ⟨.parameter, "busy", .bool, false, 0, false, false⟩)]
  types := .ofList [(0, .bool), (1, .i32), (2, .i32), (3, .i32)]

/-- Going on with the loop leaves the switch and the block around it, which declares `n`. -/
theorem continue_clears_local :
    ∃ f, (lowerMethod pollMethod pollSymbols {} .empty).1 = .ok f ∧
      ⟨2, 13, [0]⟩ ∈ lexicalScopes pollMethod pollSymbols {} .empty ∧
      [2, 3, 5, 6, 7, 8, 9, 0].IsChain (FlowsTo f.constants f.code) ∧
      ScopeSpan.lastTouch? ⟨2, 13, [0]⟩ f.code 0 [2, 3, 5, 6, 7, 8, 9, 0] = some 8 ∧
      ∃ s : Statement, f.code[8]? = some s ∧ s.Clears 0 0 := by
  have hcheck : ((lowerMethod pollMethod pollSymbols {} .empty).1.toOption.any fun f ↦
      decide ([2, 3, 5, 6, 7, 8, 9, 0].IsChain (FlowsTo f.constants f.code)) &&
      ScopeSpan.lastTouch? ⟨2, 13, [0]⟩ f.code 0 [2, 3, 5, 6, 7, 8, 9, 0] == some 8) = true := by
    decide +kernel
  have hspan : ⟨2, 13, [0]⟩ ∈ lexicalScopes pollMethod pollSymbols {} .empty := by decide +kernel
  obtain ⟨f, hf, hcheck⟩ := any_toOption.mp hcheck
  rw [Bool.and_eq_true, decide_eq_true_eq, beq_iff_eq] at hcheck
  exact ⟨f, hf, hspan, hcheck.1, hcheck.2,
    (locals_cleared_on_exit hf).2 _ hspan 0 List.mem_cons_self _ hcheck.1 ⟨0, rfl, rfl⟩ 8 hcheck.2⟩

end MethodCompiler
