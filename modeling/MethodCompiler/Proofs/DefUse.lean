import Mathlib.Data.List.Permutation
import MethodCompiler.Proofs.FlowEdges
import MethodCompiler.Proofs.SharedSlots

/-!
# Packing keeps every value from its write to its reads

Along any way through the code from a write of a register to a read of it, nothing that runs in
between writes another register with the same slot. The positions on the way lie inside the interval
of the register, strictly after its start, and a register that shares its slot has no access there.
-/

namespace MethodCompiler

/-- The registers that the statement at a position reads. -/
def readsAt (code : List Statement) (position : Nat) : List Nat :=
  (code[position]?).elim [] Statement.reads

/-- The registers that the statement at a position writes. -/
def writesAt (code : List Statement) (position : Nat) : List Nat :=
  (code[position]?).elim [] Statement.writes

/-- Control can go from one position to another: on inside a block, or from the end of a block to the
start of one that can run after it. -/
inductive FlowGraph.Follows (g : FlowGraph) : Nat → Nat → Prop
  | inside {b : Block} {q : Nat} : b ∈ g.blocks → b.start ≤ q → q < b.last → Follows g q (q + 1)
  | across {id t : Nat} {b b' : Block} : g.blocks[id]? = some b → t ∈ g.successors id →
      g.blocks[t]? = some b' → Follows g b.last b'.start

/-! ### Positions of blocks -/

section Positions

variable {code : List Statement} {b : Block} {v q : Nat}

private theorem accessedAt_of_mem_readsAt (h : v ∈ readsAt code q) : AccessedAt code v q := by
  unfold readsAt at h
  cases hs : code[q]? with
  | none => simp [hs] at h
  | some s => exact ⟨s, hs, Statement.mem_registers_of_mem_reads (by simpa [hs] using h)⟩

/-- A statement that writes a register accesses it. -/
theorem accessedAt_of_mem_writesAt (h : v ∈ writesAt code q) : AccessedAt code v q := by
  unfold writesAt at h
  cases hs : code[q]? with
  | none => simp [hs] at h
  | some s => exact ⟨s, hs, Statement.mem_registers_of_mem_writes (by simpa [hs] using h)⟩

/-- The statements of a block are those of the code from its start on. -/
theorem Block.getElem?_statements (i : Nat) :
    (b.statements code)[i]? = if i < b.size then code[b.start + i]? else none := by
  simp only [Block.statements, List.getElem?_take, List.getElem?_drop]

private theorem not_mem_writes_of_mem_take {k : Nat} (hk : k ≤ b.size)
    (hw : ∀ m, b.start ≤ m → m < b.start + k → v ∉ writesAt code m) :
    ∀ s ∈ (b.statements code).take k, v ∉ s.writes := by
  intro s hs
  obtain ⟨i, hi⟩ := List.mem_iff_getElem?.mp hs
  rw [List.getElem?_take] at hi
  split at hi
  · next hik =>
    rw [Block.getElem?_statements, if_pos (by omega)] at hi
    have := hw (b.start + i) (by omega) (by omega)
    simpa [writesAt, hi] using this
  · cases hi

end Positions

/-! ### Live positions -/

section Live

variable {code : List Statement} {g : FlowGraph} {src : FlowGraph.Source} {v q q' : Nat}

/-- The value of a register may be read from a position on: later in the block before it is written,
or after the block when nothing there writes it. -/
def LiveAt (code : List Statement) (g : FlowGraph) (v q : Nat) : Prop :=
  ∃ (id : Nat) (b : Block), g.blocks[id]? = some b ∧ b.start ≤ q ∧ q ≤ b.last ∧
    ((∃ k, q ≤ k ∧ k ≤ b.last ∧ v ∈ readsAt code k ∧ ∀ m, q ≤ m → m < k → v ∉ writesAt code m) ∨
      ((∀ m, q ≤ m → m ≤ b.last → v ∉ writesAt code m) ∧
        v ∈ (Liveness.compute code g).liveOut.getD id []))

/-- What is live at the first position of a block is in its live set. -/
private theorem mem_liveIn_of_liveAt (ht : Block.Tiles 0 g.blocks code.length) {id : Nat}
    {b : Block} (hb : g.blocks[id]? = some b) (h : LiveAt code g v b.start) :
    v ∈ (Liveness.compute code g).liveIn.getD id [] := by
  obtain ⟨id', b', hb', hlo, hhi, h⟩ := h
  have hbounds := ht.bounds hb
  obtain ⟨rfl, rfl⟩ := ht.unique hb hb' ⟨Nat.le_refl _, hbounds.2.1⟩ ⟨hlo, hhi⟩
  rw [Liveness.mem_liveIn_compute hb]
  rcases h with ⟨k, hk, hkl, hr, hw⟩ | ⟨hw, hout⟩
  · right
    unfold readsAt at hr
    cases hs : code[k]? with
    | none => simp [hs] at hr
    | some s =>
      have hsize : k - b.start < b.size := by
        simp only [Block.size]
        omega
      have hget : (b.statements code)[k - b.start]? = some s := by
        rw [Block.getElem?_statements, if_pos hsize, show b.start + (k - b.start) = k by omega, hs]
      obtain ⟨hlt, hget⟩ := List.getElem?_eq_some_iff.mp hget
      refine ⟨(b.statements code).take (k - b.start), s,
        (b.statements code).drop (k - b.start + 1), ?_, by simpa [hs] using hr, ?_⟩
      · rw [← hget, List.getElem_cons_drop, List.take_append_drop]
      · exact not_mem_writes_of_mem_take (by omega) fun m hm hm' ↦ hw m hm (by omega)
  · left
    refine ⟨hout, ?_⟩
    have hall : ∀ s ∈ (b.statements code).take b.size, v ∉ s.writes :=
      not_mem_writes_of_mem_take (Nat.le_refl b.size)
        fun m hm hm' ↦ hw m hm (by simp only [Block.size] at hm'; omega)
    rwa [List.take_of_length_le (by rw [Block.statements]; exact List.length_take_le _ _)] at hall

private theorem liveAt_of_mem_readsAt (ht : Block.Tiles 0 g.blocks code.length)
    (h : v ∈ readsAt code q) : LiveAt code g v q := by
  obtain ⟨s, hs, -⟩ := accessedAt_of_mem_readsAt h
  obtain ⟨id, b, hb, hc⟩ := ht.exists_contains (Nat.zero_le q) (List.getElem?_eq_some_iff.mp hs).1
  simp only [Block.contains, Bool.and_eq_true, decide_eq_true_eq] at hc
  exact ⟨id, b, hb, hc.1, hc.2, .inl ⟨q, Nat.le_refl q, hc.2, h, fun m hm hm' ↦ by omega⟩⟩

/-- Liveness goes back over a step that does not write the register. -/
private theorem liveAt_of_follows (ht : Block.Tiles 0 g.blocks code.length)
    (hf : g.Follows q q') (hw : v ∉ writesAt code q) (h : LiveAt code g v q') :
    LiveAt code g v q := by
  have keep {m : Nat} (hm : q ≤ m) (hrest : q + 1 ≤ m → v ∉ writesAt code m) :
      v ∉ writesAt code m := by
    rcases Nat.eq_or_lt_of_le hm with rfl | hlt
    · exact hw
    · exact hrest hlt
  cases hf with
  | @inside b _ hb hlo hlt =>
    obtain ⟨id', b', hb', hlo', hhi', h⟩ := h
    obtain ⟨id, hid⟩ := List.mem_iff_getElem?.mp hb
    obtain ⟨rfl, rfl⟩ := ht.unique hid hb' ⟨by omega, hlt⟩ ⟨hlo', hhi'⟩
    refine ⟨id, b, hid, hlo, by omega, ?_⟩
    rcases h with ⟨k, hk, hkl, hr, hkeep⟩ | ⟨hkeep, hout⟩
    · exact .inl ⟨k, by omega, hkl, hr, fun m hm hm' ↦ keep hm fun hm ↦ hkeep m hm hm'⟩
    · exact .inr ⟨fun m hm hm' ↦ keep hm fun hm ↦ hkeep m hm hm', hout⟩
  | @across id t b b' hb hs hb' =>
    have hbounds := ht.bounds hb
    refine ⟨id, b, hb, hbounds.2.1, Nat.le_refl _, .inr ⟨?_, ?_⟩⟩
    · intro m hm hm'
      obtain rfl : m = b.last := by omega
      exact hw
    · rw [Liveness.mem_liveOut_compute hb]
      exact ⟨t, hs, mem_liveIn_of_liveAt ht hb' h⟩

/-- Along a way to a read that nothing on it overwrites, the register is live everywhere. -/
private theorem liveAt_of_chain (ht : Block.Tiles 0 g.blocks code.length) {between : List Nat}
    {j : Nat} (hpath : (between ++ [j]).IsChain g.Follows) (hr : v ∈ readsAt code j)
    (hw : ∀ m ∈ between, v ∉ writesAt code m) : ∀ m ∈ between ++ [j], LiveAt code g v m := by
  induction between with
  | nil => simpa using liveAt_of_mem_readsAt ht hr
  | cons a rest ih =>
    -- The next position is the head of the rest, which is never empty.
    obtain ⟨a', tail, he⟩ := List.exists_cons_of_ne_nil (l := rest ++ [j]) (by simp)
    rw [List.cons_append, he] at hpath ⊢
    obtain ⟨hf, hpath⟩ := List.isChain_cons_cons.mp hpath
    rw [he] at ih
    have hrest := ih hpath fun m hm ↦ hw m (List.mem_cons_of_mem a hm)
    intro m hm
    rcases List.mem_cons.mp hm with rfl | hm
    · exact liveAt_of_follows ht hf (hw m List.mem_cons_self) (hrest a' List.mem_cons_self)
    · exact hrest m hm

end Live

/-! ### Inside the interval -/

section Inside

variable {code : List Statement} {g : FlowGraph} {src : FlowGraph.Source} {v q q' : Nat}

/-- A written register that is live into a block is touched at its start. -/
theorem touched_start {id : Nat} {b : Block} (hb : g.blocks[id]? = some b)
    (hl : v ∈ (Liveness.compute code g).liveIn.getD id [])
    (hw : v ∈ (Liveness.compute code g).written) : ⟨v, b.start⟩ ∈ touchesOf code g := by
  apply List.mem_append_right
  refine List.mem_flatMap.mpr ⟨(b, id), List.mk_mem_zipIdx_iff_getElem?.mpr hb, ?_⟩
  exact List.mem_append_left _ (List.mem_map.mpr ⟨v, RegisterSet.mem_inter.mpr ⟨hl, hw⟩, rfl⟩)

/-- A written register that is live out of a block is touched at its end. -/
theorem touched_last {id : Nat} {b : Block} (hb : g.blocks[id]? = some b)
    (hl : v ∈ (Liveness.compute code g).liveOut.getD id [])
    (hw : v ∈ (Liveness.compute code g).written) : ⟨v, b.last⟩ ∈ touchesOf code g := by
  apply List.mem_append_right
  refine List.mem_flatMap.mpr ⟨(b, id), List.mk_mem_zipIdx_iff_getElem?.mpr hb, ?_⟩
  exact List.mem_append_right _ (List.mem_map.mpr ⟨v, RegisterSet.mem_inter.mpr ⟨hl, hw⟩, rfl⟩)

/-- A register keeps its slot at least as long as it is live. -/
private theorem le_stop_of_liveAt (h : LiveAt code g v q)
    (hw : v ∈ (Liveness.compute code g).written) :
    q ≤ (intervalOf (intervals code g (Liveness.compute code g)) v).stop := by
  obtain ⟨id, b, hb, -, hhi, ⟨k, hk, -, hr, -⟩ | ⟨-, hout⟩⟩ := h
  · have := (intervalOf_holds (touched_of_accessedAt (accessedAt_of_mem_readsAt hr) g)).2.2
    omega
  · have := (intervalOf_holds (touched_last hb hout hw)).2.2
    omega

/-- A step to a position where the register is live stays after the start of its interval. It can
reach the start itself only at a label. -/
private theorem start_of_follows (hg : FlowGraph.BuiltFrom src g) (hcode : src.code = code)
    (ht : Block.Tiles 0 g.blocks code.length) (hf : g.Follows q q') (h : LiveAt code g v q')
    (hw : v ∈ (Liveness.compute code g).written)
    (hq : (intervalOf (intervals code g (Liveness.compute code g)) v).start ≤ q) :
    (intervalOf (intervals code g (Liveness.compute code g)) v).start < q' ∨
      (intervalOf (intervals code g (Liveness.compute code g)) v).start ≤ q' ∧
        writesAt code q' = [] := by
  cases hf with
  | inside _ _ _ => exact .inl (Nat.lt_succ_of_le hq)
  | @across id t b b' hb hs hb' =>
    have hin := mem_liveIn_of_liveAt ht hb' h
    rcases hg.entry hs hb' with ⟨s, hget, hl⟩ | ⟨id', rfl, hs'⟩
    · right
      refine ⟨(intervalOf_holds (touched_start hb' hin hw)).2.1, ?_⟩
      rw [hcode] at hget
      simpa [writesAt, hget] using Statement.writes_eq_nil_of_isLabel hl
    · left
      have hlt := (List.getElem?_eq_some_iff.mp hb').1
      have hc : g.blocks[id']? = some g.blocks[id'] := List.getElem?_eq_getElem (by omega)
      have hout : v ∈ (Liveness.compute code g).liveOut.getD id' [] := by
        rw [Liveness.mem_liveOut_compute hc]
        exact ⟨_, hs', hin⟩
      have hle := (intervalOf_holds (touched_last hc hout hw)).2.1
      have := ht.start_succ hc hb'
      omega

/-- Along a way from a write to a read, every position that writes something lies strictly after the
start of the interval. -/
private theorem start_lt_of_chain (hg : FlowGraph.BuiltFrom src g) (hcode : src.code = code)
    (ht : Block.Tiles 0 g.blocks code.length) {path : List Nat}
    (hpath : (q :: path).IsChain g.Follows) (hl : ∀ m ∈ path, LiveAt code g v m)
    (hw : v ∈ (Liveness.compute code g).written)
    (hq : (intervalOf (intervals code g (Liveness.compute code g)) v).start ≤ q) :
    ∀ m ∈ path, writesAt code m ≠ [] →
      (intervalOf (intervals code g (Liveness.compute code g)) v).start < m := by
  induction path generalizing q with
  | nil => simp
  | cons a rest ih =>
    obtain ⟨hf, hpath⟩ := List.isChain_cons_cons.mp hpath
    have ha := start_of_follows hg hcode ht hf (hl a List.mem_cons_self) hw hq
    intro m hm hne
    rcases List.mem_cons.mp hm with rfl | hm
    · rcases ha with ha | ⟨-, he⟩
      · exact ha
      · exact absurd he hne
    · exact ih hpath (fun n hn ↦ hl n (List.mem_cons_of_mem a hn))
        (by rcases ha with ha | ⟨ha, -⟩ <;> omega) m hm hne

end Inside

/-! ### Values survive -/

private theorem writesAt_apply (p : Packing) (code : List Statement) (q : Nat) :
    writesAt (p.apply code) q = (writesAt code q).map p.slotOf := by
  simp only [writesAt, Packing.apply, List.getElem?_map]
  cases code[q]? with
  | none => rfl
  | some s => exact Statement.writes_mapRegisters p.slotOf s

private theorem readsAt_apply (p : Packing) (code : List Statement) (q : Nat) :
    readsAt (p.apply code) q = (readsAt code q).map p.slotOf := by
  simp only [readsAt, Packing.apply, List.getElem?_map]
  cases code[q]? with
  | none => rfl
  | some s => exact Statement.reads_mapRegisters p.slotOf s

/-- Packing preserves every chain from a write to a read. When control goes from a write of `v` over
some positions to a read of `v` and none of them writes `v`, none of them writes another register
with the slot of `v`: in the packed code the slot is written, then left alone, then read. -/
theorem slot_kept_from_write_to_read {name : String} {code : List Statement}
    {constants : List Value} {g : FlowGraph} {limit : Nat} {p : Packing}
    (hg : FlowGraph.build code constants = .ok g) (hp : pack name code g limit = .ok p)
    {i j v : Nat} {between : List Nat} (hpath : (i :: between ++ [j]).IsChain g.Follows)
    (hw : v ∈ writesAt code i) (hr : v ∈ readsAt code j)
    (hkeep : ∀ q ∈ between, v ∉ writesAt code q) :
    (∀ q ∈ between, ∀ w ∈ writesAt code q, w ≠ v → p.slotOf w ≠ p.slotOf v) ∧
      p.slotOf v ∈ writesAt (p.apply code) i ∧ p.slotOf v ∈ readsAt (p.apply code) j ∧
      ∀ q ∈ between, p.slotOf v ∉ writesAt (p.apply code) q := by
  obtain ⟨src, hcode, -, hb⟩ := FlowGraph.builtFrom_of_build hg
  have ht : Block.Tiles 0 g.blocks code.length := by
    rw [hb.graph_blocks, hb.blocks_eq, hcode]
    exact Block.tiles_split code
  have hwritten : v ∈ (Liveness.compute code g).written := by
    obtain ⟨s, hs, -⟩ := accessedAt_of_mem_writesAt hw
    exact Liveness.mem_written_compute.mpr
      ⟨s, List.mem_of_getElem? hs, by simpa [writesAt, hs] using hw⟩
  rw [List.cons_append] at hpath
  have hlive : ∀ q ∈ between ++ [j], LiveAt code g v q := by
    obtain ⟨a, tail, he⟩ := List.exists_cons_of_ne_nil (l := between ++ [j]) (by simp)
    rw [he] at hpath
    refine liveAt_of_chain ht ?_ hr hkeep
    rw [he]
    exact (List.isChain_cons_cons.mp hpath).2
  have hi := (intervalOf_holds (touched_of_accessedAt (accessedAt_of_mem_writesAt hw) g)).2
  have other : ∀ q ∈ between, ∀ w ∈ writesAt code q, w ≠ v → p.slotOf w ≠ p.slotOf v := by
    intro q hq w hwq hne he
    have hacc := accessedAt_of_mem_writesAt hwq
    have hapart := Packing.apart_of_slotOf_eq hp hacc (accessedAt_of_mem_writesAt hw) hne he
    rw [Packing.intervals_of_pack hp] at hapart
    have hmem : q ∈ between ++ [j] := List.mem_append_left _ hq
    have hstop := le_stop_of_liveAt (hlive q hmem) hwritten
    have hstart := start_lt_of_chain hb hcode ht hpath hlive hwritten hi.1 q hmem
      (List.ne_nil_of_mem hwq)
    have hwiv := (intervalOf_holds (touched_of_accessedAt hacc g)).2
    simp only [Interval.Holds] at hwiv hi
    rcases hapart.ordered with hbefore | hbefore
    · -- The other register ends before `v` is written, but after the start of its interval.
      have hend := hbefore i (accessedAt_of_mem_writesAt hw)
      have hd := hapart.disjoint
      simp only [Interval.overlaps, Bool.and_eq_false_imp, decide_eq_true_eq,
        decide_eq_false_iff_not] at hd
      omega
    · have := hbefore q hacc
      omega
  refine ⟨other, ?_, ?_, ?_⟩
  · rw [writesAt_apply]
    exact List.mem_map_of_mem hw
  · rw [readsAt_apply]
    exact List.mem_map_of_mem hr
  · intro q hq hm
    rw [writesAt_apply] at hm
    obtain ⟨w, hwq, he⟩ := List.mem_map.mp hm
    by_cases hne : w = v
    · exact hkeep q hq (hne ▸ hwq)
    · exact other q hq w hwq hne he

/-- A loop that reads register 0 on every turn, and code after it that needs neither register of the
loop any more. -/
private def backEdgeCode : List Statement :=
  [.of .move [.register 0 .i32, .int 1],
    .label "head",
    .of .move [.register 1 .i32, .register 0 .i32],
    .of .jumpTrue [.register 1 .i32, .label "head"],
    .of .move [.register 2 .i32, .int 5],
    .of .reref [.input 0 .i32, .register 2 .i32],
    .of .ret []]

private def backEdgeGraph : FlowGraph where
  blocks := [⟨0, 0⟩, ⟨1, 3⟩, ⟨4, 6⟩]
  regions := ⟨List.replicate 7 none, []⟩
  edges := [⟨0, .block 1, .fallthrough⟩, ⟨1, .block 2, .fallthrough⟩, ⟨1, .block 1, .branch⟩]

private def backEdgePacking : Packing where
  count := 2
  assignment := [(0, 0), (1, 1), (2, 0)]
  intervals := [(0, ⟨0, 3⟩), (1, ⟨2, 3⟩), (2, ⟨4, 5⟩)]

private theorem backEdge_chain : (0 :: [1, 2, 3, 1] ++ [2]).IsChain backEdgeGraph.Follows := by
  have h01 : 1 ∈ backEdgeGraph.successors 0 :=
    FlowGraph.mem_successors.mpr ⟨.fallthrough, by decide⟩
  have h11 : 1 ∈ backEdgeGraph.successors 1 := FlowGraph.mem_successors.mpr ⟨.branch, by decide⟩
  have enter : backEdgeGraph.Follows 0 1 := .across (b := ⟨0, 0⟩) rfl h01 rfl
  have back : backEdgeGraph.Follows 3 1 := .across (b := ⟨1, 3⟩) rfl h11 rfl
  have first : backEdgeGraph.Follows 1 2 := .inside (b := ⟨1, 3⟩) (by decide) (by decide) (by decide)
  have second : backEdgeGraph.Follows 2 3 := .inside (b := ⟨1, 3⟩) (by decide) (by decide) (by decide)
  simp [enter, back, first, second]

/-- Register 0 keeps its slot around the back edge, though register 2 takes the slot over later. -/
theorem slot_kept_around_back_edge :
    FlowGraph.build backEdgeCode [] = .ok backEdgeGraph ∧
      pack "f" backEdgeCode backEdgeGraph 2 = .ok backEdgePacking ∧
      backEdgePacking.slotOf 2 = backEdgePacking.slotOf 0 ∧
      ∀ q ∈ [1, 2, 3, 1],
        backEdgePacking.slotOf 0 ∉ writesAt (backEdgePacking.apply backEdgeCode) q := by
  have hg : FlowGraph.build backEdgeCode [] = .ok backEdgeGraph := rfl
  have hp : pack "f" backEdgeCode backEdgeGraph 2 = .ok backEdgePacking := rfl
  refine ⟨hg, hp, by decide, ?_⟩
  exact (slot_kept_from_write_to_read hg hp backEdge_chain (by decide) (by decide)
    (by decide)).2.2.2

end MethodCompiler
