import MethodCompiler.Proofs.DefUse
import MethodCompiler.Proofs.FrameLimit
import MethodCompiler.Proofs.KeptFlow
import MethodCompiler.Proofs.PathLiveness

/-!
# Packing packed code

Wherever a register had to keep its value, its slot has to keep one in the packed code. So the interval
of a slot is no smaller than the intervals of its owners. A second walk therefore turns down each slot
that the first one turned down, and meets the slots in the order in which they were handed out: it gives
every slot itself.
-/

namespace MethodCompiler

variable {name : String} {code : List Statement} {g : FlowGraph} {limit : Nat} {p : Packing}
  {b q v w : Nat} {block : Block}

/-! ### Packed code -/

namespace Packing

private theorem accessedAt_apply (h : AccessedAt code v q) : AccessedAt (p.apply code) (p.slotOf v) q := by
  obtain ⟨s, hs, hv⟩ := h
  refine ⟨s.mapRegisters p.slotOf, ?_, ?_⟩
  · rw [apply, List.getElem?_map, hs, Option.map_some]
  · rw [Statement.registers_mapRegisters]
    exact List.mem_map_of_mem hv

private theorem exists_of_accessedAt_apply (h : AccessedAt (p.apply code) w q) :
    ∃ v, AccessedAt code v q ∧ p.slotOf v = w := by
  obtain ⟨s, hs, hw⟩ := h
  rw [apply, List.getElem?_map] at hs
  obtain ⟨t, ht, rfl⟩ := Option.map_eq_some_iff.mp hs
  rw [Statement.registers_mapRegisters] at hw
  obtain ⟨v, hv, rfl⟩ := List.mem_map.mp hw
  exact ⟨v, ⟨t, ht, hv⟩, rfl⟩

private theorem statements_apply (p : Packing) (block : Block) (code : List Statement) :
    block.statements (p.apply code) = (block.statements code).map (·.mapRegisters p.slotOf) := by
  rw [Block.statements, Block.statements, apply, List.map_take, List.map_drop]

private theorem mem_written_apply (h : v ∈ (Liveness.compute code g).written) :
    p.slotOf v ∈ (Liveness.compute (p.apply code) g).written := by
  obtain ⟨s, hs, hv⟩ := Liveness.mem_written_compute.mp h
  refine Liveness.mem_written_compute.mpr ⟨s.mapRegisters p.slotOf, List.mem_map_of_mem hs, ?_⟩
  rw [Statement.writes_mapRegisters]
  exact List.mem_map_of_mem hv

end Packing

/-! ### Slots are live where their registers are -/

section Live

/-- An access of another register with the same slot, made before a register ends, comes no later than
the register starts. -/
private theorem le_start_of_shared (hp : pack name code g limit = .ok p) {q' : Nat}
    (hv : AccessedAt code v q') (hw : AccessedAt code w q) (hne : w ≠ v)
    (he : p.slotOf w = p.slotOf v) (hstop : q ≤ (intervalOf p.intervals v).stop) :
    q ≤ (intervalOf p.intervals v).start := by
  have hapart := Packing.apart_of_slotOf_eq hp hw hv hne he
  obtain ⟨-, hwlo, hwhi⟩ := Packing.covers_of_pack hp w q hw
  obtain ⟨-, hvlo, hvhi⟩ := Packing.covers_of_pack hp v q' hv
  have hdisjoint := hapart.disjoint
  simp only [Interval.overlaps, Bool.and_eq_false_imp, decide_eq_true_eq,
    decide_eq_false_iff_not] at hdisjoint
  rcases hapart.ordered with hbefore | hbefore
  · have := hbefore q' hv
    omega
  · have := hbefore q hw
    omega

/-- Another register with the slot of `v` is written by the first statement of a block. -/
def TakenAtStart (code : List Statement) (g : FlowGraph) (p : Packing) (v b : Nat) : Prop :=
  ∃ block w, g.blocks[b]? = some block ∧ w ≠ v ∧ w ∈ writesAt code block.start ∧
    p.slotOf w = p.slotOf v

variable (hp : pack name code g limit = .ok p) (hb : g.blocks[b]? = some block)
  (hwritten : v ∈ (Liveness.compute code g).written)

include hp hb hwritten

private theorem holds_start (hlive : v ∈ (Liveness.compute code g).liveIn.getD b []) :
    (intervalOf p.intervals v).Holds block.start := by
  rw [Packing.intervals_of_pack hp]
  exact (intervalOf_holds (touched_start hb hlive hwritten)).2

private theorem holds_last (hlive : v ∈ (Liveness.compute code g).liveOut.getD b []) :
    (intervalOf p.intervals v).Holds block.last := by
  rw [Packing.intervals_of_pack hp]
  exact (intervalOf_holds (touched_last hb hlive hwritten)).2

/-- Statements at the head of a block that do not write a live register do not write its slot, unless
the first of them takes the slot. -/
private theorem kept_or_taken {k : Nat} (hlive : v ∈ (Liveness.compute code g).liveIn.getD b [])
    (hkeep : ∀ t ∈ (block.statements code).take k, v ∉ t.writes)
    (hstop : ∀ i < k, i < block.size → block.start + i ≤ (intervalOf p.intervals v).stop) :
    (∀ t ∈ (block.statements code).take k, p.slotOf v ∉ (t.mapRegisters p.slotOf).writes) ∨
      TakenAtStart code g p v b := by
  by_contra hno
  obtain ⟨hsome, hnot⟩ := not_or.mp hno
  push Not at hsome
  obtain ⟨t, ht, hm⟩ := hsome
  rw [Statement.writes_mapRegisters] at hm
  obtain ⟨w, hw, he⟩ := List.mem_map.mp hm
  have hne : w ≠ v := by
    rintro rfl
    exact hkeep t ht hw
  obtain ⟨i, hi⟩ := List.mem_iff_getElem?.mp ht
  rw [List.getElem?_take] at hi
  split at hi
  · next hik =>
    rw [Block.getElem?_statements] at hi
    split at hi
    · next hsize =>
      have hwrites : w ∈ writesAt code (block.start + i) := by simpa [writesAt, hi] using hw
      obtain ⟨q', hv⟩ := exists_accessedAt_of_written hwritten
      have hle := le_start_of_shared hp hv (accessedAt_of_mem_writesAt hwrites) hne he
        (hstop i hik hsize)
      have hlo := (holds_start hp hb hwritten hlive).1
      obtain rfl : i = 0 := by omega
      exact hnot ⟨block, w, hb, hne, hwrites, he⟩
    · cases hi
  · cases hi

omit hb in
/-- Nothing takes the slot of a register that is live into a block at the start of the block, if control
comes there from another block. -/
private theorem not_takenAtStart {constants : List Value} (hg : FlowGraph.build code constants = .ok g)
    {s : Nat} (hs : s ∈ g.successors b)
    (hlive : v ∈ (Liveness.compute code g).liveIn.getD s []) : ¬TakenAtStart code g p v s := by
  rintro ⟨block', w, hb', hne, hw, he⟩
  obtain ⟨src, hcode, -, hbuilt⟩ := FlowGraph.builtFrom_of_build hg
  have ht : Block.Tiles 0 g.blocks code.length := by
    rw [FlowGraph.blocks_of_build hg]
    exact Block.tiles_split code
  rcases hbuilt.entry hs hb' with ⟨t, hget, hlabel⟩ | ⟨id', rfl, hs'⟩
  · rw [hcode] at hget
    simp [writesAt, hget, Statement.writes_eq_nil_of_isLabel hlabel] at hw
  · -- the register is live at the end of the block before, hence its interval has started there
    have hlt := (List.getElem?_eq_some_iff.mp hb').1
    have hc : g.blocks[id']? = some g.blocks[id'] := List.getElem?_eq_getElem (by omega)
    have hout := (Liveness.mem_liveOut_compute hc).mpr ⟨_, hs', hlive⟩
    have hlo := (holds_last hp hc hwritten hout).1
    have hhi := (holds_start hp hb' hwritten hlive).2
    have hsucc := ht.start_succ hc hb'
    obtain ⟨q', hv⟩ := exists_accessedAt_of_written hwritten
    have hle := le_start_of_shared hp hv (accessedAt_of_mem_writesAt hw) hne he hhi
    omega

omit hp hb hwritten

variable {constants : List Value}

/-- The slot of a written register that is live into a block is live there too, unless the first
statement of the block takes it. -/
private theorem goesBack_slot (hp : pack name code g limit = .ok p)
    (hg : FlowGraph.build code constants = .ok g) :
    Liveness.GoesBack (Liveness.flowsOf code g) fun b v ↦
      v ∈ (Liveness.compute code g).liveIn.getD b [] ∧
        (v ∈ (Liveness.compute code g).written →
          p.slotOf v ∈ (Liveness.compute (p.apply code) g).liveIn.getD b [] ∨
            TakenAtStart code g p v b) where
  uses {b f v} hf hv := by
    obtain ⟨block, hb, rfl⟩ := Liveness.exists_of_getElem?_flowsOf hf
    rw [BlockFlow.ofBlock, BlockFlow.mem_gather_uses] at hv
    obtain hv | ⟨-, before, s, after, heq, hread, hkeep⟩ := hv
    · cases hv
    have hlive := (Liveness.mem_liveIn_compute hb).mpr (.inr ⟨before, s, after, heq, hread, hkeep⟩)
    refine ⟨hlive, fun hwritten ↦ ?_⟩
    have hget : code[block.start + before.length]? = some s := by
      have hs : (block.statements code)[before.length]? = some s := by rw [heq]; simp
      rw [Block.getElem?_statements] at hs
      split at hs
      · exact hs
      · cases hs
    have hstop : block.start + before.length ≤ (intervalOf p.intervals v).stop :=
      (Packing.covers_of_pack hp v _ ⟨s, hget, Statement.mem_registers_of_mem_reads hread⟩).2.2
    have htake : (block.statements code).take before.length = before := by rw [heq]; simp
    rcases kept_or_taken (k := before.length) hp hb hwritten hlive (by rwa [htake])
      (by intro i hi _; omega) with hkept | htaken
    · rw [htake] at hkept
      refine .inl ((Liveness.mem_liveIn_compute hb).mpr (.inr ⟨before.map (·.mapRegisters p.slotOf),
        s.mapRegisters p.slotOf, after.map (·.mapRegisters p.slotOf), ?_, ?_, ?_⟩))
      · rw [Packing.statements_apply, heq, List.map_append, List.map_cons]
      · rw [Statement.reads_mapRegisters]
        exact List.mem_map_of_mem hread
      · exact List.forall_mem_map.mpr hkept
    · exact .inr htaken
  passes {b f s v} hf hs hv := by
    rintro ⟨hlive', hslot⟩
    obtain ⟨block, hb, rfl⟩ := Liveness.exists_of_getElem?_flowsOf hf
    have hkeep : ∀ t ∈ block.statements code, v ∉ t.writes := by
      intro t ht hw
      rw [BlockFlow.ofBlock, BlockFlow.mem_gather_defs] at hv
      exact hv (.inr ⟨t, ht, hw⟩)
    have hout := (Liveness.mem_liveOut_compute hb).mpr ⟨s, hs, hlive'⟩
    have hlive := (Liveness.mem_liveIn_compute hb).mpr (.inl ⟨hout, hkeep⟩)
    refine ⟨hlive, fun hwritten ↦ ?_⟩
    have hslot := (hslot hwritten).resolve_right (not_takenAtStart hp hwritten hg hs hlive')
    have hfirst := (holds_start hp hb hwritten hlive).2
    have hlast := (holds_last hp hb hwritten hout).2
    have htake : (block.statements code).take block.size = block.statements code := by
      rw [Block.statements, List.take_take, Nat.min_self]
    rcases kept_or_taken (k := block.size) hp hb hwritten hlive (by rwa [htake])
      (by intro i hi _; rw [Block.size] at hi; omega) with hkept | htaken
    · rw [htake] at hkept
      refine .inl ((Liveness.mem_liveIn_compute hb).mpr (.inl ⟨?_, ?_⟩))
      · exact (Liveness.mem_liveOut_compute hb).mpr ⟨s, hs, hslot⟩
      · rw [Packing.statements_apply]
        exact List.forall_mem_map.mpr hkept
    · exact .inr htaken

/-- Wherever a register has to keep its value, its slot has to keep one. -/
theorem touched_apply (hp : pack name code g limit = .ok p)
    (hg : FlowGraph.build code constants = .ok g) (h : ⟨v, q⟩ ∈ touchesOf code g) :
    ⟨p.slotOf v, q⟩ ∈ touchesOf (p.apply code) g := by
  have hback := (goesBack_slot hp hg).of_mem_liveIn
  rcases cases_of_touched h with haccessed | ⟨hwritten, b, block, hb, ⟨hlive, rfl⟩ | ⟨hout, rfl⟩⟩
  · exact touched_of_accessedAt (Packing.accessedAt_apply haccessed) g
  · rcases (hback b v hlive).2 hwritten with hslot | ⟨block', w, hb', -, hw, he⟩
    · exact touched_start hb hslot (Packing.mem_written_apply hwritten)
    · obtain rfl := Option.some.inj (hb.symm.trans hb')
      rw [← he]
      exact touched_of_accessedAt (Packing.accessedAt_apply (accessedAt_of_mem_writesAt hw)) g
  · obtain ⟨s, hs, hlive⟩ := (Liveness.mem_liveOut_compute hb).mp hout
    have hslot := ((hback s v hlive).2 hwritten).resolve_right
      (not_takenAtStart hp hwritten hg hs hlive)
    exact touched_last hb ((Liveness.mem_liveOut_compute hb).mpr ⟨s, hs, hslot⟩)
      (Packing.mem_written_apply hwritten)

end Live

/-! ### Intervals of slots -/

namespace Interval

/-- The span of some positions has its ends among them. -/
private theorem mem_of_span {ps : List Nat} {iv : Interval} (h : span? ps = some iv) :
    iv.start ∈ ps ∧ iv.stop ∈ ps := by
  have fold (qs : List Nat) (iv : Interval) (hstart : iv.start ∈ ps) (hstop : iv.stop ∈ ps)
      (hqs : qs ⊆ ps) : (qs.foldl touch iv).start ∈ ps ∧ (qs.foldl touch iv).stop ∈ ps := by
    induction qs generalizing iv with
    | nil => exact ⟨hstart, hstop⟩
    | cons q rest ih =>
      obtain ⟨hq, hrest⟩ := List.cons_subset.mp hqs
      refine ih (iv.touch q) ?_ ?_ hrest
      · simp only [touch]
        rcases Nat.le_total iv.start q with hle | hle
        · rwa [Nat.min_eq_left hle]
        · rwa [Nat.min_eq_right hle]
      · simp only [touch]
        rcases Nat.le_total iv.stop q with hle | hle
        · rwa [Nat.max_eq_right hle]
        · rwa [Nat.max_eq_left hle]
  cases ps with
  | nil => cases h
  | cons q rest =>
    obtain rfl := Option.some.inj h
    exact fold rest (single q) List.mem_cons_self List.mem_cons_self (List.subset_cons_self q rest)

/-- An interval with both ends in another one lies inside it. -/
def Inside (iv outer : Interval) : Prop := outer.Holds iv.start ∧ outer.Holds iv.stop

private theorem Inside.overlaps {a b a' b' : Interval} (ha : a.Inside a') (hb : b.Inside b')
    (h : a.overlaps b = true) : a'.overlaps b' = true := by
  obtain ⟨⟨ha₁, -⟩, -, ha₂⟩ := ha
  obtain ⟨⟨hb₁, -⟩, -, hb₂⟩ := hb
  simp only [Interval.overlaps, Bool.and_eq_true, decide_eq_true_eq] at h ⊢
  omega

end Interval

/-- A register is touched at both ends of its interval. -/
private theorem touched_ends (g : FlowGraph) (h : AccessedAt code v q) :
    ⟨v, (intervalOf (intervals code g (Liveness.compute code g)) v).start⟩ ∈ touchesOf code g ∧
      ⟨v, (intervalOf (intervals code g (Liveness.compute code g)) v).stop⟩ ∈ touchesOf code g := by
  obtain ⟨r, -, hm⟩ := List.mem_filterMap.mp (covers_intervals code g v q h).1
  obtain ⟨iv, hs, he⟩ := Option.map_eq_some_iff.mp hm
  obtain ⟨rfl, hiv⟩ := Prod.mk.inj he
  have htouched {q' : Nat} (hq' : q' ∈ ((Touch.ofCode code ++
      Touch.ofBlocks g (Liveness.compute code g)).filter (·.register == r)).map (·.position)) :
      ⟨r, q'⟩ ∈ touchesOf code g := by
    obtain ⟨⟨r', _⟩, ht, rfl⟩ := List.mem_map.mp hq'
    obtain ⟨hmem, hr⟩ := List.mem_filter.mp ht
    obtain rfl : r' = r := by simpa using hr
    exact hmem
  rw [← hiv]
  exact ⟨htouched (Interval.mem_of_span hs).1, htouched (Interval.mem_of_span hs).2⟩

/-- The interval of a register lies inside that of its slot in the packed code. -/
private theorem interval_inside_slot {constants : List Value} (hp : pack name code g limit = .ok p)
    (hg : FlowGraph.build code constants = .ok g) (h : AccessedAt code v q) :
    (intervalOf p.intervals v).Inside (intervalOf (intervals (p.apply code) g
      (Liveness.compute (p.apply code) g)) (p.slotOf v)) := by
  rw [Packing.intervals_of_pack hp]
  obtain ⟨hstart, hstop⟩ := touched_ends g h
  exact ⟨(intervalOf_holds (touched_apply hp hg hstart)).2,
    (intervalOf_holds (touched_apply hp hg hstop)).2⟩

/-! ### The second walk -/

namespace SlotFile

/-- The file in which each of `n` registers is the only owner of the slot with its number, and holds it
up to the end of its interval. -/
def self (J : Nat → Interval) (position n : Nat) : SlotFile where
  slots := (List.range n).map fun k ↦ ⟨[(k, J k)], decide (position ≤ (J k).stop)⟩
  assignment := (List.range n).reverse.map fun k ↦ (k, k)

variable {J : Nat → Interval} {n k : Nat}

private theorem slot?_self : (self J q n).slot? k = if k < n then some k else none := by
  induction n with
  | zero => rfl
  | succ n ih =>
    have hcons : (self J q (n + 1)).assignment = (n, n) :: (self J q n).assignment := by
      simp [self, List.range_succ]
    rw [slot?, hcons]
    by_cases hk : n = k
    · subst hk
      simp
    · rw [List.find?_cons_of_neg (by simpa using hk)]
      refine ih.trans ?_
      by_cases hlt : k < n
      · rw [if_pos hlt, if_pos (by omega)]
      · rw [if_neg hlt, if_neg (by omega)]

private theorem release_self : (self J q n).release q = self J (q + 1) n := by
  simp only [release, self, List.map_map, SlotFile.mk.injEq, and_true]
  refine List.map_congr_left fun k _ ↦ ?_
  simp only [Function.comp_apply, Slot.release, List.all_cons, List.all_nil, Bool.and_true,
    Slot.mk.injEq, true_and]
  by_cases hle : (J k).stop ≤ q
  · simp [hle, Nat.lt_succ_of_le hle]
  · simp [hle]
    omega

private theorem claim_self_old {ivs : List (Nat × Interval)} (h : k < n) :
    (self J q n).claim limit ivs k = some (self J q n) := by
  rw [claim, slot?_self, if_pos h]
  rfl

/-- When all slots turn a register down, and its number is the next one, it gets a slot with its own
number. -/
private theorem claim_self_new {ivs : List (Nat × Interval)} (hJ : intervalOf ivs n = J n)
    (hlimit : n < limit) (hq : q ≤ (J n).stop)
    (h : ∀ k < n, q ≤ (J k).stop ∨ (J k).overlaps (J n) = true) :
    (self J q n).claim limit ivs n = some (self J q (n + 1)) := by
  have hnone : (self J q n).slots.findIdx? (·.accepts (J n)) = none := by
    rw [List.findIdx?_eq_none_iff]
    intro slot hslot
    obtain ⟨k, hk, rfl⟩ := List.mem_map.mp hslot
    rcases h k (List.mem_range.mp hk) with hheld | hover
    · simp [Slot.accepts, hheld]
    · simp [Slot.accepts, hover]
  have hlen : (self J q n).slots.length = n := by simp [self]
  have hiv : ((ivs.find? (·.1 == n)).map (·.2)).getD (Interval.single 0) = J n := hJ
  rw [claim, slot?_self, if_neg (Nat.lt_irrefl n)]
  simp only [hiv, hnone, hlen, if_pos hlimit]
  simp [self, List.range_succ, Slot.take, hq]

/-- What relates the file of a walk to that of a walk over the packed code. -/
structure Mirrored (code : List Statement) (ivs ivs' : List (Nat × Interval)) (position : Nat)
    (f f' : SlotFile) : Prop where
  fits : f.Fits code ivs position
  filled : f.Filled code ivs position
  eq_self : f' = self (intervalOf ivs') position f.slots.length

section Mirrored

variable {ivs ivs' : List (Nat × Interval)} {σ : Nat → Nat} {r : Nat} {f f₁ f' last : SlotFile}

private theorem mirrored_empty (code : List Statement) (ivs ivs' : List (Nat × Interval)) :
    Mirrored code ivs ivs' 0 {} {} :=
  ⟨fits_empty code ivs, filled_empty code ivs, rfl⟩

private theorem Mirrored.release (h : Mirrored code ivs ivs' q f f')
    (hall : ∀ r, AccessedAt code r q → (f.slot? r).isSome) :
    Mirrored code ivs ivs' (q + 1) (f.release q) (f'.release q) where
  fits := h.fits.release hall
  filled := h.filled.release
  eq_self := by rw [h.eq_self, release_self, SlotFile.release, List.length_map]

/-- A slot that turns a register down has an owner that still needs it or that overlaps. -/
private theorem Filled.exists_of_not_accepts (h : Filled code ivs q f) {slot : Slot} {iv : Interval}
    (hslot : slot ∈ f.slots) (hrejects : slot.accepts iv = false) :
    ∃ o ∈ slot.owners, q ≤ o.2.stop ∨ o.2.overlaps iv = true := by
  simp only [Slot.accepts, Bool.and_eq_false_iff, Bool.not_eq_false', List.all_eq_false,
    Bool.not_eq_true', Bool.not_eq_false] at hrejects
  rcases hrejects with hheld | ⟨o, ho, hover⟩
  · obtain ⟨o, ho, hle⟩ := h.holding slot hslot hheld
    exact ⟨o, ho, .inl hle⟩
  · exact ⟨o, ho, .inr hover⟩

/-- A register claims a slot, and the number of this slot claims itself. -/
private theorem Mirrored.claim (h : Mirrored code ivs ivs' q f f') (hcovers : Covers code ivs)
    (hinside : ∀ {v q}, AccessedAt code v q → (intervalOf ivs v).Inside (intervalOf ivs' (σ v)))
    (hslot : ∀ r q, AccessedAt code r q → last.slot? r = some (σ r)) (hr : AccessedAt code r q)
    (hc : f.claim limit ivs r = some f₁) (hlast : f₁.Grows last) :
    ∃ f₁', f'.claim limit ivs' (σ r) = some f₁' ∧ Mirrored code ivs ivs' q f₁ f₁' := by
  obtain ⟨hfits, hfilled, rfl⟩ := h
  refine ⟨_, ?_, hfits.claim hc, hfilled.claim hcovers hr hc, rfl⟩
  have hgrows := (grows_claim hc).trans hlast
  have hnumber {v q i : Nat} (hv : AccessedAt code v q) (hi : last.slot? v = some i) : σ v = i :=
    Option.some.inj ((hslot v q hv).symm.trans hi)
  rcases claim_cases hc with ⟨hsome, rfl⟩ | ⟨-, ⟨i, hi, rfl⟩ | ⟨hnone, hlt, rfl⟩⟩
  · obtain ⟨i, hi⟩ := Option.isSome_iff_exists.mp hsome
    obtain ⟨_, hget, -⟩ := hfits.owned r i hi
    rw [hnumber hr (hgrows.kept hi)]
    exact claim_self_old (List.getElem?_eq_some_iff.mp hget).1
  · have hself : σ r = i := hnumber hr (hlast.kept (by rw [slot?_cons, if_pos rfl]))
    rw [hself, List.length_modify]
    exact claim_self_old (List.findIdx?_eq_some_iff_getElem.mp hi).1
  · have hself : σ r = f.slots.length := hnumber hr (hlast.kept (by rw [slot?_cons, if_pos rfl]))
    have hr' := hinside hr
    rw [hself] at hr'
    rw [hself, List.length_append]
    refine claim_self_new rfl hlt (Nat.le_trans (hcovers r q hr).2.2 hr'.2.2) fun k hk ↦ ?_
    -- the interval of a slot holds those of its owners, so it stands in the way where they do
    obtain ⟨o, ho, hblocks⟩ := hfilled.exists_of_not_accepts (List.getElem_mem hk)
      (List.findIdx?_eq_none_iff.mp hnone _ (List.getElem_mem hk))
    obtain ⟨hs, hiv⟩ := hfilled.owners (List.getElem?_eq_getElem hk) ho
    obtain ⟨q', -, hq'⟩ := hfilled.met hs
    have ho' := hinside hq'
    rw [← hiv, hnumber hq' (hgrows.kept hs)] at ho'
    exact hblocks.imp (fun hle ↦ Nat.le_trans hle ho'.2.2) (ho'.overlaps hr')

end Mirrored

end SlotFile

namespace Packing

/-- The walk over the packed code gives each slot itself. -/
theorem walk_apply {constants : List Value} (hp : pack name code g limit = .ok p)
    (hg : FlowGraph.build code constants = .ok g) :
    SlotFile.walk limit (MethodCompiler.intervals (p.apply code) g
      (Liveness.compute (p.apply code) g)) {} 0 (p.apply code) =
        some (SlotFile.self (intervalOf (MethodCompiler.intervals (p.apply code) g
          (Liveness.compute (p.apply code) g))) code.length p.count) := by
  obtain ⟨last, hw, hcount, -, hslot⟩ := exists_of_pack hp
  obtain ⟨last', hw', hmirrored⟩ := SlotFile.walk_alongside (σ := p.slotOf)
    (R := SlotFile.Mirrored code p.intervals (MethodCompiler.intervals (p.apply code) g
      (Liveness.compute (p.apply code) g)))
    limit _ (fun h hr hc hlast ↦
      h.claim (covers_of_pack hp) (interval_inside_slot hp hg) hslot hr hc hlast)
    SlotFile.Mirrored.release List.drop_zero (SlotFile.mirrored_empty _ _ _) hw
  rw [hcount, ← Nat.zero_add code.length, ← hmirrored.eq_self]
  exact hw'

/-- A packing in which no register has another slot than itself renumbers nothing. -/
private theorem apply_eq_self (h : ∀ {r slot}, (r, slot) ∈ p.assignment → slot = r)
    (code : List Statement) : p.apply code = code := by
  have hid : p.slotOf = id := by
    funext r
    rw [slotOf]
    cases hf : p.assignment.find? (·.1 == r) with
    | none => rfl
    | some e =>
      obtain ⟨a, slot⟩ := e
      obtain rfl : a = r := by simpa using List.find?_some hf
      exact h (List.mem_of_find?_eq_some hf)
  rw [apply, hid]
  simp [Statement.mapRegisters_id]

/-- The registers of packed code are the slots. -/
private theorem accessedAt_apply_iff (hp : pack name code g limit = .ok p) {slot : Nat} :
    (∃ q, AccessedAt (p.apply code) slot q) ↔ slot < p.count := by
  constructor
  · rintro ⟨q, hq⟩
    obtain ⟨v, hv, rfl⟩ := exists_of_accessedAt_apply hq
    exact slotOf_lt_count hp hv
  · intro hlt
    have hproper := proper_of_pack hp
    obtain ⟨v, hv⟩ := (hproper.owner slot).mp hlt
    have hacc : ∃ q, AccessedAt code v q := by
      rw [← exists_mem_intervals (g := g), ← hproper.intervals_eq]
      exact hproper.interval hv
    obtain ⟨q, hq⟩ := hacc
    have hslot : p.slotOf v = slot := slotOf_of_mem (assignment_ascending_of_pack hp) hv
    exact ⟨q, hslot ▸ accessedAt_apply hq⟩

/-- A file that gives each slot itself stands for the identity on the slots. -/
private theorem assignment_self {ivs : List (Nat × Interval)} {J : Nat → Interval} {n : Nat}
    (hascending : ivs.Pairwise (·.1 < ·.1)) (hkeys : ∀ r, (∃ iv, (r, iv) ∈ ivs) ↔ r < n) :
    (ofFile ivs (SlotFile.self J q n)).assignment = (List.range n).map fun r ↦ (r, r) := by
  have hrange : ivs.map (·.1) = List.range n := by
    refine RegisterSet.Ascending.eq_of_mem_iff (List.pairwise_map.mpr hascending)
      List.pairwise_lt_range fun r ↦ ?_
    rw [List.mem_range, ← hkeys r]
    simp
  rw [← hrange, List.map_map, ofFile, ← List.filterMap_eq_map]
  refine List.filterMap_congr fun e he ↦ ?_
  obtain ⟨r, iv⟩ := e
  simp only [SlotFile.slot?_self, if_pos ((hkeys r).mp ⟨iv, he⟩)]
  rfl

end Packing

/-- Packing packed code does nothing. The packed code has a graph, and packing succeeds on it under the
same limit. Every slot is given itself, so the code stays as it is, and the number of slots is the
same. -/
theorem packed_code_packs_to_itself {constants : List Value}
    (hg : FlowGraph.build code constants = .ok g) (hp : pack name code g limit = .ok p) :
    ∃ g' p', FlowGraph.build (p.apply code) constants = .ok g' ∧
      packCode name (p.apply code) g' limit = (.ok p', p.apply code) ∧
      p'.assignment = (List.range p.count).map (fun slot ↦ (slot, slot)) ∧ p'.count = p.count := by
  have hpack := Packing.pack_of_walk (Packing.walk_apply hp hg) name
  have hassignment := Packing.assignment_self (q := code.length)
    (J := intervalOf (intervals (p.apply code) g (Liveness.compute (p.apply code) g)))
    (intervals_ascending (p.apply code) g (Liveness.compute (p.apply code) g))
    (fun r ↦ exists_mem_intervals.trans (Packing.accessedAt_apply_iff hp))
  refine ⟨g, _, ((keepsFlow_mapRegisters p.slotOf).build code constants).trans hg, ?_, hassignment, ?_⟩
  · rw [packCode, hpack]
    refine Prod.ext rfl (Packing.apply_eq_self ?_ _)
    intro r slot hm
    rw [hassignment] at hm
    obtain ⟨k, -, he⟩ := List.mem_map.mp hm
    obtain ⟨rfl, rfl⟩ := Prod.mk.inj he
    rfl
  · simp [Packing.ofFile, SlotFile.self]

/-- A loop that counts register 5 down, and code after it that can use the slot again. -/
private def countdownCode : List Statement :=
  [.of .move [.register 5 .i32, .int 9],
    .label "again",
    .of .sub [.register 8 .i32, .register 5 .i32, .int 1],
    .of .move [.register 5 .i32, .register 8 .i32],
    .of .jumpTrue [.register 5 .i32, .label "again"],
    .of .move [.register 6 .i32, .int 2],
    .of .reref [.input 0 .i32, .register 6 .i32],
    .of .ret []]

private def countdownGraph : FlowGraph where
  blocks := [⟨0, 0⟩, ⟨1, 4⟩, ⟨5, 7⟩]
  regions := ⟨List.replicate 8 none, []⟩
  edges := [⟨0, .block 1, .fallthrough⟩, ⟨1, .block 2, .fallthrough⟩, ⟨1, .block 1, .branch⟩]

private def countdownPacking : Packing where
  count := 2
  assignment := [(5, 0), (6, 0), (8, 1)]
  intervals := [(5, ⟨0, 4⟩), (6, ⟨5, 6⟩), (8, ⟨2, 3⟩)]

/-- The two slots of the packed loop keep their numbers. -/
theorem countdown_packs_to_itself :
    FlowGraph.build countdownCode [] = .ok countdownGraph ∧
      pack "f" countdownCode countdownGraph 2 = .ok countdownPacking ∧
      ∃ g' p', FlowGraph.build (countdownPacking.apply countdownCode) [] = .ok g' ∧
        packCode "f" (countdownPacking.apply countdownCode) g' 2 =
          (.ok p', countdownPacking.apply countdownCode) ∧
        p'.assignment = [(0, 0), (1, 1)] ∧ p'.count = 2 := by
  have hg : FlowGraph.build countdownCode [] = .ok countdownGraph := rfl
  have hp : pack "f" countdownCode countdownGraph 2 = .ok countdownPacking := rfl
  exact ⟨hg, hp, packed_code_packs_to_itself hg hp⟩

end MethodCompiler
