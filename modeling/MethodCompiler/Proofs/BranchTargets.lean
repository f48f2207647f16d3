import MethodCompiler.Proofs.NeededLeaves
import MethodCompiler.Proofs.RegionSpans

/-!
# Branches that stay in their region

No leave can stand before a branch that control may also pass by, so such a branch has to stay in the
part of the region that it stands in. Inserting leaves checks this for conditional branches. The targets
of a `switch` are in its jump table, not among its operands, and are not checked: that they stay holds
because the code of a method is laid out so.
-/

namespace MethodCompiler

variable {code : List Statement} {w : Walk code} {map : RegionMap} {labels table : LabelTable}
  {need : Nat → Nat} {sealed : Bool} {pool : List Value} {regions : List Region} {stack : RegionStack}
  {s : Statement} {l : String} {position i n : Nat}

/-- A jump from a position to a label would leave no region. -/
def RegionMap.StaysAt (map : RegionMap) (labels : LabelTable) (position : Nat) (l : String) : Prop :=
  ∃ target, labels.resolve l = .ok target ∧
    exitChain map.regions (.jump target) labels position (map.openAt position) = .ok []

/-- A scan of code with leaves finds the regions of the walk open at each statement. -/
theorem Walk.Pads.exists_openAt (h : w.Pads labels need) :
    ∃ map, RegionMap.scan (padded need code) = .ok map ∧ map.regions = w.allRegions ∧
      ∀ {i}, i < code.length → map.openAt (paddedStart need i + need i) = w.stack i := by
  obtain ⟨map, hscan, hregions, hstates⟩ := h.exists_scan
  refine ⟨map, hscan, hregions, fun hi ↦ ?_⟩
  rw [RegionMap.openAt, hregions, hstates hi (Nat.le_refl _), (w.linked_allRegions hi).stackAt]

/-! ### Conditional branches -/

/-- A conditional branch in a region is accepted only if it stays there. -/
private theorem exists_target_of_leavesNeeded (h : leavesNeeded regions stack labels s position = .ok n)
    (hopen : stack ≠ []) (hcond : s.op.isConditionalBranch = true) (hl : s.target? = some l) :
    ∃ target, labels.resolve l = .ok target ∧
      exitChain regions (.jump target) labels position stack = .ok [] := by
  rw [leavesNeeded, if_neg (by simpa using hopen), if_pos hcond] at h
  simp only [hl] at h
  obtain ⟨target, htarget, h⟩ := bind_eq_ok.mp h
  obtain ⟨chain, hchain, h⟩ := bind_eq_ok.mp h
  refine ⟨target, htarget, ?_⟩
  split at h
  · next hnil =>
    rw [List.isEmpty_iff.mp hnil] at hchain
    exact hchain
  · cases h

private theorem Walk.Pads.staysAt_of_conditional (h : w.Pads labels need)
    (hregions : map.regions = w.allRegions)
    (hopenAt : map.openAt (paddedStart need i + need i) = w.stack i) (hs : code[i]? = some s)
    (hopen : w.stack i ≠ []) (hcond : s.op.isConditionalBranch = true) (hl : s.target? = some l) :
    map.StaysAt (labels.spread need code.length) (paddedStart need i + need i) l := by
  have hi := (List.getElem?_eq_some_iff.mp hs).1
  obtain ⟨n, -, hneeded⟩ := h.bounded_allRegions hs
  have hmoved : leavesNeeded w.allRegions (w.stack i) (labels.spread need code.length) s
      (paddedStart need i + need i) = .ok n :=
    leavesNeeded_spread (h.exists_start hi) (Nat.le_of_lt hi) hneeded
  rw [RegionMap.StaysAt, hregions, hopenAt]
  exact exists_target_of_leavesNeeded hmoved hopen hcond hl

/-! ### Jump tables -/

/-- In laid out code the sections of a `switch` stand in the regions that it stands in. -/
private theorem Walk.Inserts.staysAt_of_switch (h : w.Inserts sealed pool labels need)
    (htable : LabelTable.build (padded need code) = .ok table) (hregions : map.regions = w.allRegions)
    (hopenAt : map.openAt (paddedStart need i + need i) = w.stack i) (hs : code[i]? = some s)
    (hop : s.op = .switch) (hl : l ∈ FlowGraph.switchTargets s pool) :
    map.StaysAt table (paddedStart need i + need i) l := by
  have hi := (List.getElem?_eq_some_iff.mp hs).1
  have hloc := w.located_padded htable h.leaving.position
  obtain ⟨hplain, j, hj, hstay⟩ := (h.shaped.leads hs).switch hop l hl
  have hchain := exitChain_jump h.shaped hloc hi (Nat.le_of_lt hi)
    (show w.stack i = [] ++ [] ++ w.stack j from hstay.symm) hj hplain (paddedStart need i + need i)
  rw [List.nil_append, hstay] at hchain
  refine ⟨_, hloc.resolve hj, ?_⟩
  rw [hregions, hopenAt]
  exact hchain

/-- Every conditional branch of code with leaves stays in the part of the region that it stands in. In
the code of a method, so does every `switch`. -/
theorem branches_stay_in_region {out : LabelledCode} (h : insertLeaves code = .ok out) :
    ∃ map, RegionMap.scan out.statements = .ok map ∧
      ∀ position s, out.statements[position]? = some s → map.openAt position ≠ [] →
        (s.op.isConditionalBranch = true → ∀ l, s.target? = some l →
          map.StaysAt out.labels position l) ∧
        ∀ m symbols o functions f, (lowerMethod m symbols o functions).1 = .ok f → f.code = code →
          s.op = .switch → ∀ l ∈ FlowGraph.switchTargets s f.constants,
            map.StaysAt out.labels position l := by
  obtain ⟨labels, w, need, hlabels, hfills, rfl⟩ := exists_fills h
  obtain ⟨map, hscan, hregions, hopenAt⟩ := hfills.pads.exists_openAt
  refine ⟨map, hscan, fun position s hs hopen ↦ ⟨fun hcond l hl ↦ ?_, ?_⟩⟩
  · obtain ⟨i, hget, rfl⟩ := exists_of_getElem?_padded hs fun hop ↦ by
      rw [hop] at hcond
      cases hcond
    have hi := (List.getElem?_eq_some_iff.mp hget).1
    rw [hopenAt hi] at hopen
    exact hfills.pads.staysAt_of_conditional hregions (hopenAt hi) hget hopen hcond hl
  · rintro m symbols o functions f hf rfl hop l hl
    have hwell : f.WellFormed false := wellFormed_of_lowerMethod hf nofun
    have hleaves : f.withLeaves = .ok { f with code := padded need f.code } :=
      bind_eq_ok.mpr ⟨_, h, rfl⟩
    obtain ⟨w', labels', need', hinserts, hcode⟩ := hwell.exists_inserts hleaves
    have hpadded : padded need f.code = padded need' f.code := congrArg LoweredFunction.code hcode
    obtain ⟨map', hscan', hregions', hopenAt'⟩ := hinserts.leaving.pads.exists_openAt
    simp only [hpadded] at hscan hs
    obtain rfl := Except.ok.inj (hscan.symm.trans hscan')
    have htable : LabelTable.build (padded need f.code) = .ok (labels.spread need f.code.length) :=
      LabelTable.build_padded hlabels
    rw [hpadded] at htable
    obtain ⟨i, hget, rfl⟩ := exists_of_getElem?_padded hs (by rw [hop]; decide)
    exact hinserts.staysAt_of_switch htable hregions' (hopenAt' (List.getElem?_eq_some_iff.mp hget).1)
      hget hop hl

/-- `try { switch (name) { case "stop": if (quiet) return; break; } } finally { }` -/
private def pickMethod : Method where
  index := 0
  name := "pick"
  isStatic := true
  params := [{ name := "name", ty := .string }, { name := "quiet", ty := .bool }]
  returnTy := .void
  body := .mk [.tryCatch Span.none
    (.mk [.switch Span.none (.name ⟨1, Span.none⟩ "name")
      [.mk [.case (.string "stop")]
        [.ifElse Span.none (.name ⟨2, Span.none⟩ "quiet") (.ret Span.none none) none,
          .breakOut Span.none]]] Span.none)
    [] (some (.mk [] Span.none))] Span.none

private def pickSymbols : SymbolTable where
  symbols := .ofList [(1, ⟨.parameter, "name", .string, false, 0, false, false⟩),
    (2, ⟨.parameter, "quiet", .bool, false, 1, false, false⟩)]
  types := .ofList [(1, .string), (2, .bool)]

/-- The `switch` and the branch past the return both stay in the guarded part. -/
theorem pick_branches_stay : ∃ f out map, (lowerMethod pickMethod pickSymbols {} .empty).1 = .ok f ∧
    insertLeaves f.code = .ok out ∧ RegionMap.scan out.statements = .ok map ∧
    (∃ s : Statement, out.statements[1]? = some s ∧ s.op = .switch ∧ map.openAt 1 = [(0, .inTry)] ∧
      FlowGraph.switchTargets s f.constants = ["switch1_case0"] ∧
      map.StaysAt out.labels 1 "switch1_case0") ∧
    ∃ s : Statement, out.statements[4]? = some s ∧ s.op = .jumpFalse ∧ map.openAt 4 = [(0, .inTry)] ∧
      s.target? = some "if2_end" ∧ map.StaysAt out.labels 4 "if2_end" := by
  have hcheck : ((lowerMethod pickMethod pickSymbols {} .empty).1.toOption.any fun f ↦
      (insertLeaves f.code).toOption.any fun out ↦
        (RegionMap.scan out.statements).toOption.any fun map ↦
          out.statements[1]?.any (fun s : Statement ↦ decide (s.op = .switch ∧
            map.openAt 1 = [(0, .inTry)] ∧
            FlowGraph.switchTargets s f.constants = ["switch1_case0"])) &&
          out.statements[4]?.any fun s : Statement ↦ decide (s.op = .jumpFalse ∧
            map.openAt 4 = [(0, .inTry)] ∧ s.target? = some "if2_end")) = true := by decide +kernel
  obtain ⟨f, hf, hcheck⟩ := any_toOption.mp hcheck
  obtain ⟨out, hout, hcheck⟩ := any_toOption.mp hcheck
  obtain ⟨map, hmap, hcheck⟩ := any_toOption.mp hcheck
  simp only [Bool.and_eq_true, Option.any_eq_true, decide_eq_true_eq] at hcheck
  obtain ⟨⟨s, hs, hop, hopen, htable⟩, t, ht, hjump, hopen', htarget⟩ := hcheck
  obtain ⟨map', hscan, hstay⟩ := branches_stay_in_region hout
  obtain rfl := Except.ok.inj (hscan.symm.trans hmap)
  refine ⟨f, out, _, hf, hout, hscan, ⟨s, hs, hop, hopen, htable, ?_⟩,
    t, ht, hjump, hopen', htarget, ?_⟩
  · refine (hstay 1 s hs (by simp [hopen])).2 _ _ _ _ f hf rfl hop _ ?_
    rw [htable]
    exact List.mem_cons_self
  · exact (hstay 4 t ht (by simp [hopen'])).1 (by rw [hjump]; rfl) _ htarget

/-! ### A jump table that leads out of its region -/

/-- `try { switch (r0) { case "x": goto a_end } } catch { } a_end: return` -/
private def escapeCode : List Statement :=
  [.of .enterTry [.label "a_catch", .null, .label "a_end"],
    .of .switch [.register 0 .string, .constant 0],
    .label "a_catch",
    .label "a_end",
    .of .ret []]

private def escapeOut : LabelledCode where
  statements := escapeCode
  labels := [("a_catch", 2), ("a_end", 3)]

private def escapeMap : RegionMap where
  states := [none, some (0, .inTry), some (0, .inCatch), none, none]
  regions := [⟨[], 0, some "a_catch", none, "a_end"⟩]

/-- The jump table of a `switch` in a guarded part leads out of it, and the code is accepted as it is. -/
theorem escaping_switch_accepted : insertLeaves escapeCode = .ok escapeOut ∧
    RegionMap.scan escapeOut.statements = .ok escapeMap ∧ escapeMap.openAt 1 = [(0, .inTry)] ∧
    "a_end" ∈ FlowGraph.switchTargets (.of .switch [.register 0 .string, .constant 0])
      [.table .string .i32 [(.string "x", .label "a_end")]] ∧
    ¬ escapeMap.StaysAt escapeOut.labels 1 "a_end" := by
  refine ⟨rfl, rfl, by decide, List.mem_cons_self, ?_⟩
  rintro ⟨target, htarget, hchain⟩
  have htarget' : escapeOut.labels.resolve "a_end" = .ok 3 := rfl
  obtain rfl := Except.ok.inj (htarget.symm.trans htarget')
  have hleaves : exitChain escapeMap.regions (.jump 3) escapeOut.labels 1 (escapeMap.openAt 1) =
    .ok [0] := rfl
  cases hchain.symm.trans hleaves

end MethodCompiler
