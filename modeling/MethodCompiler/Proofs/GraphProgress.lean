import MethodCompiler.Proofs.RegionProgress

/-!
# Flow graphs that can be built

Every label that code with leaves names is in it, also those of the regions around a statement, and each
leave stands for one of the regions that the transfer behind it leaves. So its flow graph can be built.
-/

namespace MethodCompiler

variable {code : List Statement} {w : Walk code} {sealed : Bool} {pool : List Value}
  {s : Statement} {labels : LabelTable} {need : Nat → Nat} {src : FlowGraph.Source} {block : Block}
  {r : Region} {id : RegionId} {i j k p : Nat} {l : String}

/-! ### Edges -/

/-- What edges depend on, for code with the leaves that a walk inserts. -/
structure Walk.Sees (w : Walk code) (pool : List Value) (need : Nat → Nat)
    (src : FlowGraph.Source) : Prop where
  statements : src.code = padded need code
  constants : src.constants = pool
  labels : LabelTable.build src.code = .ok src.labels
  regions : src.regions.regions = w.allRegions
  state : ∀ {i k}, i < code.length → k ≤ need i →
    src.regions.stateAt (paddedStart need i + k) = (w.stack i).head?

namespace Walk.Sees

variable (hsrc : w.Sees pool need src)

include hsrc

private theorem stackAt_eq (hi : i < code.length) (hk : k ≤ need i) :
    stackAt src.regions.regions (src.regions.stateAt (paddedStart need i + k)) = w.stack i := by
  rw [hsrc.regions, hsrc.state hi hk, (w.linked_allRegions hi).stackAt]

private theorem exists_cleanupEdges (number : Nat) (hp : block.last < src.code.length) :
    ∃ edges, src.cleanupEdges number block = .ok edges := by
  unfold FlowGraph.Source.cleanupEdges
  split
  · next hend =>
    rw [hsrc.statements] at hp hend
    obtain ⟨i, k, hi, hk, hlast⟩ := exists_paddedStart hp
    rw [hlast] at hend
    rcases Nat.lt_or_eq_of_le hk with hk | rfl
    · rw [getElem?_padded_leave hi hk] at hend
      cases hend
    · have hs := List.getElem?_eq_getElem hi
      rw [getElem?_padded hi, hs, Option.any_some, beq_iff_eq] at hend
      obtain ⟨id, outer, hstack⟩ := w.of_endFinally hs hend
      rw [hlast, hsrc.state hi (Nat.le_refl _), hstack]
      simp only [List.head?_cons]
      split <;> exact ⟨_, rfl⟩
  · exact ⟨_, rfl⟩

variable (h : w.Inserts sealed pool labels need)

include h

private theorem located : w.Located src.labels (fun j ↦ paddedStart need j + need j) code.length :=
  w.located_padded (hsrc.statements ▸ hsrc.labels) h.leaving.position

private theorem exists_labelBlock (hl : labelAt? code j = some l) : ∃ b, src.labelBlock l = .ok b :=
  exists_bind_ok ⟨_, (hsrc.located h).resolve hl⟩ fun _ _ ↦ ⟨_, rfl⟩

/-- The labels of regions are in the code. -/
private theorem exists_labelBlock_of_region (hr : src.regions.regions[id]? = some r)
    (hl : r.catchLabel = some l ∨ r.finallyLabel = some l) : ∃ b, src.labelBlock l = .ok b := by
  rw [hsrc.regions] at hr
  obtain ⟨first, last, hplaced⟩ := h.shaped.placed hr
  rcases hl with hl | hl
  · obtain ⟨j, hj, -⟩ := hplaced.handler l hl
    exact hsrc.exists_labelBlock h hj
  · obtain ⟨j, hj, -⟩ := hplaced.cleanup l hl
    exact hsrc.exists_labelBlock h hj

/-- A leave belongs to one of the regions that the transfer behind it leaves. -/
private theorem exists_regionLeftBy (hi : i < code.length) (hk : k < need i) :
    ∃ id, src.regionLeftBy (paddedStart need i + k) = .ok id := by
  have hs := List.getElem?_eq_getElem hi
  obtain ⟨hbefore, hrun⟩ := leaves_around (fun s ↦ h.ne_leave) hi (Nat.le_of_lt hk)
  rw [leavesBefore, ← hsrc.statements] at hbefore
  rw [← hsrc.statements] at hrun
  have htransfer : paddedStart need i + k + (need i - k) = paddedStart need i + need i := by omega
  have hat : src.code[paddedStart need i + need i]? = some code[i] := by
    rw [hsrc.statements, getElem?_padded hi, hs]
  obtain ⟨chain, hleaves, hlength⟩ := h.exists_leaves hs
  obtain ⟨exit, hexit, hchain⟩ := hleaves.exitChain_eq h.shaped hs (hsrc.located h) (Nat.le_of_lt hi)
    (paddedStart need i + need i)
  rw [← hsrc.regions, ← hsrc.stackAt_eq hi (Nat.le_refl _)] at hchain
  have hget : chain[k]? = some chain[k] := List.getElem?_eq_getElem (by omega)
  refine ⟨chain[k], ?_⟩
  unfold FlowGraph.Source.regionLeftBy
  simp only [hbefore, hrun, htransfer, hat, hexit, bind, Except.bind]
  cases exit with
  | none =>
    cases hchain
    cases hget
  | some exit =>
    rw [Option.elim_some] at hchain
    simp only [hchain, hget]
    rfl

private theorem exists_targetBlock (hs : code[i]? = some s) (hop : s.op.isBranch = true) :
    ∃ b, src.targetBlock s = .ok b := by
  obtain ⟨l, hl⟩ := h.target (List.mem_of_getElem? hs) hop
  obtain ⟨j, hj, -⟩ := ((h.shaped.leads hs).branch l hl).found
  simp only [FlowGraph.Source.targetBlock, hl]
  exact hsrc.exists_labelBlock h hj

private theorem exists_catchingBlock (state : RegionState) : ∃ b, src.catchingBlock? state = .ok b := by
  unfold FlowGraph.Source.catchingBlock?
  simp only
  split
  · next l hl =>
    obtain ⟨⟨id, phase⟩, -, hlabel⟩ := List.mem_filterMap.mp (List.mem_of_mem_head? hl)
    simp only at hlabel
    split at hlabel
    · obtain ⟨r, hr, hcatch⟩ := Option.bind_eq_some_iff.mp hlabel
      exact exists_bind_ok (hsrc.exists_labelBlock_of_region h hr (.inl hcatch)) fun _ _ ↦ ⟨_, rfl⟩
    · cases hlabel
  · exact ⟨none, rfl⟩

private theorem exists_terminalEdges (number : Nat) (hp : block.last < src.code.length) :
    ∃ edges, src.terminalEdges number block = .ok edges := by
  rw [hsrc.statements] at hp
  obtain ⟨i, k, hi, hk, hlast⟩ := exists_paddedStart hp
  unfold FlowGraph.Source.terminalEdges
  simp only
  rcases Nat.lt_or_eq_of_le hk with hk | rfl
  · have hat : src.code[block.last]? = some .leave := by
      rw [hsrc.statements, hlast, getElem?_padded_leave hi hk]
    simp only [hat]
    refine exists_bind_ok (hlast ▸ hsrc.exists_regionLeftBy h hi hk) fun id _ ↦ ?_
    split
    · next l hl =>
      obtain ⟨r, hr, hfinally⟩ := Option.bind_eq_some_iff.mp hl
      exact exists_bind_ok (hsrc.exists_labelBlock_of_region h hr (.inr hfinally)) fun _ _ ↦ ⟨_, rfl⟩
    · exact ⟨_, rfl⟩
  · have hs := List.getElem?_eq_getElem hi
    have hat : src.code[block.last]? = some code[i] := by
      rw [hsrc.statements, hlast, getElem?_padded hi, hs]
    simp only [hat]
    split
    · next hcond =>
      have hbranch : code[i].op.isBranch = true := by rw [Opcode.isBranch, hcond, Bool.or_true]
      exact exists_bind_ok (hsrc.exists_targetBlock h hs hbranch) fun _ _ ↦ ⟨_, rfl⟩
    · split
      · next hop =>
        have hbranch : code[i].op.isBranch = true := by rw [hop]; rfl
        exact exists_bind_ok (hsrc.exists_targetBlock h hs hbranch) fun _ _ ↦ ⟨_, rfl⟩
      · next hop => exact absurd hop (h.ne_leave (List.getElem_mem hi))
      · refine exists_bind_ok (hsrc.exists_catchingBlock h _) fun handler _ ↦ ?_
        cases handler <;> exact ⟨_, rfl⟩
      · refine exists_bind_ok (hsrc.exists_catchingBlock h _) fun handler _ ↦ ?_
        cases handler <;> exact ⟨_, rfl⟩
      · next hop =>
        refine exists_bind_ok (exists_mapM_ok fun l hl ↦ ?_) fun _ _ ↦ ⟨_, rfl⟩
        rw [hsrc.constants] at hl
        obtain ⟨j, hj, -⟩ := ((h.shaped.leads hs).switch hop l hl).found
        exact hsrc.exists_labelBlock h hj
      · exact ⟨_, rfl⟩
      · exact ⟨_, rfl⟩
      · exact ⟨_, rfl⟩

private theorem exists_exceptionalEdges (number : Nat) (block : Block) :
    ∃ edges, src.exceptionalEdges number block = .ok edges := by
  unfold FlowGraph.Source.exceptionalEdges
  split
  · exact ⟨_, rfl⟩
  · next l hl =>
    suffices hlabel : ∃ b, src.labelBlock l = .ok b from exists_bind_ok hlabel fun _ _ ↦ ⟨_, rfl⟩
    unfold FlowGraph.Source.handlerLabel? at hl
    split at hl
    · cases hl
    · split at hl
      · next hr _ =>
        exact hsrc.exists_labelBlock_of_region h hr (Option.or_eq_some_iff.mp hl |>.imp_right And.right)
      · next hr _ => exact hsrc.exists_labelBlock_of_region h hr (.inr hl)
      · cases hl

end Walk.Sees

/-- The flow graph of code with leaves can be built. -/
theorem Walk.Inserts.exists_build (h : w.Inserts sealed pool labels need) :
    ∃ graph, FlowGraph.build (padded need code) pool = .ok graph := by
  obtain ⟨regions, hscan, hregions, hstates⟩ := h.leaving.exists_scan
  have hnodup := (LabelTable.build_eq_ok.mp h.built).1
  rw [← labelsOf_padded need] at hnodup
  refine exists_bind_ok ⟨regions, hscan⟩ fun regions' hscan' ↦ ?_
  obtain rfl : regions = regions' := Except.ok.inj (hscan.symm.trans hscan')
  refine exists_bind_ok ⟨_, LabelTable.build_eq_ok.mpr ⟨hnodup, rfl⟩⟩ fun labels' hlabels ↦ ?_
  have hsrc : w.Sees pool need
      ⟨padded need code, pool, labels', regions, Block.split (padded need code)⟩ :=
    ⟨rfl, rfl, hlabels, hregions, hstates⟩
  have hlast {block : Block} {number : Nat}
      (hb : (block, number) ∈ (Block.split (padded need code)).zipIdx) :
      block.last < (padded need code).length :=
    ((Block.tiles_split _).bounds (List.mk_mem_zipIdx_iff_getElem?.mp hb)).2.2
  refine exists_bind_ok (exists_mapM_ok fun ⟨block, number⟩ hb ↦ ?_) fun _ _ ↦
    exists_bind_ok (exists_mapM_ok fun ⟨block, number⟩ hb ↦ ?_) fun _ _ ↦ ⟨_, rfl⟩
  · exact exists_bind_ok (hsrc.exists_terminalEdges h number (hlast hb)) fun _ _ ↦
      exists_bind_ok (hsrc.exists_exceptionalEdges h number block) fun _ _ ↦ ⟨_, rfl⟩
  · exact hsrc.exists_cleanupEdges number (hlast hb)

end MethodCompiler
