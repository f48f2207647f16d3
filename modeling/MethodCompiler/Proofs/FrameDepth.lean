import MethodCompiler.Proofs.FrameLimit

/-!
# The least frame

When every interval starts at the first access of its register, a slot that is free suits every register
that asks for one. A new slot is then opened only where all others are held for registers that are still
needed, and registers that are needed at the same position never share a slot. So the frame has as many
slots as there are intervals around the most crowded position.
-/

namespace MethodCompiler

variable {name : String} {code : List Statement} {g : FlowGraph} {limit n q r : Nat}
  {ivs : List (Nat × Interval)} {f f' : SlotFile} {p : Packing}

/-! ### Crowded positions -/

/-- The registers whose intervals hold a position, both ends included. -/
def crowdAt (ivs : List (Nat × Interval)) (q : Nat) : List Nat :=
  (ivs.filter fun e ↦ e.2.start ≤ q && q ≤ e.2.stop).map (·.1)

/-- The number of intervals that hold a position. -/
def depthAt (ivs : List (Nat × Interval)) (q : Nat) : Nat := (crowdAt ivs q).length

/-- The largest number of intervals that hold one of the first `n` positions. -/
def peakDepth (ivs : List (Nat × Interval)) (n : Nat) : Nat :=
  ((List.range n).map (depthAt ivs)).max?.getD 0

private theorem mem_crowdAt : r ∈ crowdAt ivs q ↔ ∃ iv, (r, iv) ∈ ivs ∧ iv.Holds q := by
  simp [crowdAt, Interval.Holds]

private theorem nodup_crowdAt (h : ivs.Pairwise (·.1 < ·.1)) (q : Nat) : (crowdAt ivs q).Nodup :=
  nodup_keys (h.filter _)

private theorem peakDepth_le_iff {m : Nat} : peakDepth ivs n ≤ m ↔ ∀ q < n, depthAt ivs q ≤ m := by
  rw [peakDepth]
  cases hmax : ((List.range n).map (depthAt ivs)).max? with
  | none =>
    obtain rfl : n = 0 := by simpa using List.max?_eq_none_iff.mp hmax
    simp
  | some d =>
    rw [Option.getD_some, List.max?_le_iff hmax]
    simp

private theorem depthAt_le_peakDepth (h : q < n) : depthAt ivs q ≤ peakDepth ivs n :=
  peakDepth_le_iff.mp (Nat.le_refl _) q h

/-- Every interval starts at the first access of its register. -/
def Straight (code : List Statement) (ivs : List (Nat × Interval)) : Prop :=
  ∀ r iv, (r, iv) ∈ ivs → AccessedAt code r iv.start ∧ ∀ q, AccessedAt code r q → iv.start ≤ q

/-- An interval holds all accesses of its register, so it is enough that it starts at one of them. -/
private theorem straight_intervals
    (h : ∀ r iv, (r, iv) ∈ intervals code g (Liveness.compute code g) → AccessedAt code r iv.start) :
    Straight code (intervals code g (Liveness.compute code g)) := by
  intro r iv hm
  refine ⟨h r iv hm, fun q hq ↦ ?_⟩
  have hholds := (covers_intervals code g r q hq).2
  rw [intervalOf_of_mem (intervals_ascending code g _) hm] at hholds
  exact hholds.1

/-! ### No more slots than intervals at one position -/

namespace SlotFile

/-- A register that comes up at a position starts there. -/
private theorem start_eq_of_fresh (h : Fits code ivs q f) (hcovers : Covers code ivs)
    (hstraight : Straight code ivs) (hr : AccessedAt code r q) (hfresh : f.slot? r = none) :
    (intervalOf ivs r).start = q := by
  obtain ⟨hmem, hholds⟩ := hcovers r q hr
  apply Nat.le_antisymm hholds.1
  by_contra hlt
  have := h.assigned _ (Nat.lt_of_not_le hlt) r (hstraight r _ hmem).1
  rw [hfresh] at this
  cases this

/-- A slot that is free suits an interval that starts at the position. -/
private theorem accepts_of_free (h : Fits code ivs q f) {slot : Slot} (hslot : slot ∈ f.slots)
    (hfree : slot.held = false) {iv : Interval} (hstart : iv.start = q) : slot.accepts iv = true := by
  rw [Slot.accepts, hfree, Bool.not_false, Bool.true_and, List.all_eq_true]
  intro o ho
  have hended := h.ended slot hslot hfree o ho
  simp only [Interval.overlaps, Bool.not_eq_true', Bool.and_eq_false_imp, decide_eq_true_eq,
    decide_eq_false_iff_not]
  omega

/-- The slots and one more register are as many as the intervals that hold a position where no slot
suits the register. -/
private theorem length_lt_depthAt (h : Fits code ivs q f) (hfilled : Filled code ivs q f)
    (hcovers : Covers code ivs) (hstraight : Straight code ivs) (hr : AccessedAt code r q)
    (hfresh : f.slot? r = none)
    (hnone : f.slots.findIdx? (·.accepts (intervalOf ivs r)) = none) :
    f.slots.length < depthAt ivs q := by
  have hstart := start_eq_of_fresh h hcovers hstraight hr hfresh
  have howner (i : Nat) (hi : i < f.slots.length) : ∃ a ∈ crowdAt ivs q, f.slot? a = some i := by
    have hmem : f.slots[i] ∈ f.slots := List.getElem_mem hi
    have hheld : f.slots[i].held = true := by
      by_contra hfree
      have hno := List.findIdx?_eq_none_iff.mp hnone _ hmem
      rw [accepts_of_free h hmem (Bool.eq_false_iff.mpr hfree) hstart] at hno
      cases hno
    obtain ⟨o, ho, hstop⟩ := hfilled.holding _ hmem hheld
    obtain ⟨hslot, hiv⟩ := hfilled.owners (List.getElem?_eq_getElem hi) ho
    obtain ⟨q', hle, hq'⟩ := hfilled.met hslot
    obtain ⟨hmem', hholds⟩ := hcovers o.1 q' hq'
    refine ⟨o.1, mem_crowdAt.mpr ⟨_, hmem', ?_, hiv ▸ hstop⟩, hslot⟩
    exact Nat.le_trans hholds.1 hle
  -- the slots of the registers at this position: all there are, and none for the new register
  have hsubset : none :: (List.range f.slots.length).map some ⊆ (crowdAt ivs q).map f.slot? := by
    intro x hx
    rcases List.mem_cons.mp hx with rfl | hx
    · obtain ⟨hmem, hholds⟩ := hcovers r q hr
      exact List.mem_map.mpr ⟨r, mem_crowdAt.mpr ⟨_, hmem, hholds⟩, hfresh⟩
    · obtain ⟨i, hi, rfl⟩ := List.mem_map.mp hx
      obtain ⟨a, ha, hslot⟩ := howner i (List.mem_range.mp hi)
      exact List.mem_map.mpr ⟨a, ha, hslot⟩
  have hnodup : (none :: (List.range f.slots.length).map some).Nodup := by
    refine List.nodup_cons.mpr ⟨by simp, ?_⟩
    exact List.nodup_range.map (Option.some_injective _)
  have hle := (List.subperm_of_subset hnodup hsubset).length_le
  simpa [depthAt, Nat.succ_le_iff] using hle

/-- A walk hands out no more slots than there are intervals around one position. -/
theorem length_le_peakDepth (hcovers : Covers code ivs) (hstraight : Straight code ivs)
    (hw : walk limit ivs {} 0 code = some f) : f.slots.length ≤ peakDepth ivs code.length := by
  refine (walk_induction (P := fun q f ↦ Fits code ivs q f ∧ Filled code ivs q f ∧
    f.slots.length ≤ peakDepth ivs code.length)
    ⟨fits_empty code ivs, filled_empty code ivs, Nat.zero_le _⟩ ?_ ?_ hw).2.2
  · rintro q f f₁ r ⟨hfits, hfilled, hle⟩ hr hc
    refine ⟨hfits.claim hc, hfilled.claim hcovers hr hc, ?_⟩
    rcases claim_cases hc with ⟨-, rfl⟩ | ⟨hfresh, ⟨i, -, rfl⟩ | ⟨hnone, -, rfl⟩⟩
    · exact hle
    · rwa [List.length_modify]
    · rw [List.length_append, List.length_singleton]
      have hlt := length_lt_depthAt hfits hfilled hcovers hstraight hr hfresh hnone
      obtain ⟨s, hs, -⟩ := hr
      exact Nat.le_trans hlt (depthAt_le_peakDepth (List.getElem?_eq_some_iff.mp hs).1)
  · rintro q f ⟨hfits, hfilled, hle⟩ hall
    refine ⟨hfits.release hall, hfilled.release, ?_⟩
    rwa [release, List.length_map]

/-! ### No fewer slots -/

/-- Registers whose intervals hold a common position have slots of their own. -/
private theorem depthAt_le_length (h : Fits code ivs code.length f) (hascending : ivs.Pairwise (·.1 < ·.1))
    (hstraight : Straight code ivs) (q : Nat) : depthAt ivs q ≤ f.slots.length := by
  have hinj : ∀ a ∈ crowdAt ivs q, ∀ b ∈ crowdAt ivs q, f.slot? a = f.slot? b → a = b := by
    intro a ha b hb heq
    obtain ⟨iv, hiv, hholds⟩ := mem_crowdAt.mp ha
    obtain ⟨iv', hiv', hholds'⟩ := mem_crowdAt.mp hb
    obtain ⟨hfirst, -⟩ := hstraight a iv hiv
    obtain ⟨hfirst', -⟩ := hstraight b iv' hiv'
    obtain ⟨i, hi⟩ := h.exists_slot hfirst
    by_contra hne
    -- one of them has ended before the other starts, yet both hold the position
    rcases (h.apart a b i hi (heq ▸ hi) hne).ordered with hbefore | hbefore
    · have := hbefore _ hfirst'
      rw [intervalOf_of_mem hascending hiv] at this
      exact absurd (Nat.lt_of_lt_of_le this hholds'.1) (Nat.not_lt.mpr hholds.2)
    · have := hbefore _ hfirst
      rw [intervalOf_of_mem hascending hiv'] at this
      exact absurd (Nat.lt_of_lt_of_le this hholds.1) (Nat.not_lt.mpr hholds'.2)
  have hsubset : (crowdAt ivs q).map f.slot? ⊆ (List.range f.slots.length).map some := by
    intro x hx
    obtain ⟨a, ha, rfl⟩ := List.mem_map.mp hx
    obtain ⟨iv, hiv, -⟩ := mem_crowdAt.mp ha
    obtain ⟨hfirst, -⟩ := hstraight a iv hiv
    obtain ⟨i, hi⟩ := h.exists_slot hfirst
    obtain ⟨_, hget, -⟩ := h.owned a i hi
    rw [hi]
    exact List.mem_map_of_mem (List.mem_range.mpr (List.getElem?_eq_some_iff.mp hget).1)
  have hnodup : ((crowdAt ivs q).map f.slot?).Nodup :=
    (nodup_crowdAt hascending q).map_on hinj
  have hle := (List.subperm_of_subset hnodup hsubset).length_le
  simpa [depthAt] using hle

end SlotFile

/-- The frame has as many slots as there are intervals around the most crowded position. -/
theorem Packing.count_eq_peakDepth
    (h : Straight code (MethodCompiler.intervals code g (Liveness.compute code g)))
    (hp : pack name code g limit = .ok p) :
    p.count = peakDepth (MethodCompiler.intervals code g (Liveness.compute code g)) code.length := by
  obtain ⟨f, hw, hfile⟩ := exists_walk_of_pack hp
  rw [intervals_of_pack hp] at hw hfile
  rw [show p.count = f.slots.length by rw [hfile]; rfl]
  apply Nat.le_antisymm
  · exact SlotFile.length_le_peakDepth (covers_intervals code g) h hw
  · exact peakDepth_le_iff.mpr fun q _ ↦
      SlotFile.depthAt_le_length (SlotFile.fits_of_walk hw) (intervals_ascending code g _) h q

/-- Packing is optimal on code whose intervals start at the first accesses of their registers: it
succeeds exactly if no position lies in more intervals than the limit allows, and takes as many slots
as there are intervals around the most crowded position. -/
theorem packs_within_depth (name : String) (code : List Statement) (g : FlowGraph) (limit : Nat)
    (h : Straight code (intervals code g (Liveness.compute code g))) :
    ((∃ p, pack name code g limit = .ok p) ↔
      ∀ q < code.length, depthAt (intervals code g (Liveness.compute code g)) q ≤ limit) ∧
    ∀ p, pack name code g limit = .ok p →
      p.count = peakDepth (intervals code g (Liveness.compute code g)) code.length := by
  obtain ⟨p, hp⟩ := Packing.exists_pack_eq code g
  have hcount := Packing.count_eq_peakDepth h ((hp name p.count).trans (if_pos (Nat.le_refl _)))
  refine ⟨?_, fun p hp ↦ Packing.count_eq_peakDepth h hp⟩
  rw [← peakDepth_le_iff, ← hcount, hp]
  constructor
  · rintro ⟨p', hp'⟩
    by_contra hlt
    rw [if_neg hlt] at hp'
    cases hp'
  · intro hle
    exact ⟨p, if_pos hle⟩

/-- A sum whose operands are read by the statement that writes the result: all three registers need
slots there. -/
private def sumCode : List Statement :=
  [.of .move [.register 3 .i32, .int 1],
    .of .move [.register 4 .i32, .int 2],
    .of .add [.register 5 .i32, .register 3 .i32, .register 4 .i32],
    .of .reref [.input 0 .i32, .register 5 .i32],
    .of .ret []]

private def sumGraph : FlowGraph where
  blocks := [⟨0, 4⟩]
  regions := ⟨List.replicate 5 none, []⟩
  edges := []

private theorem intervals_sumCode :
    intervals sumCode sumGraph (Liveness.compute sumCode sumGraph) =
      [(3, ⟨0, 2⟩), (4, ⟨1, 2⟩), (5, ⟨2, 3⟩)] := by decide +kernel

/-- Two slots are not enough for the sum, and three are all taken. -/
theorem sum_packs_within_three :
    FlowGraph.build sumCode [] = .ok sumGraph ∧
      Straight sumCode (intervals sumCode sumGraph (Liveness.compute sumCode sumGraph)) ∧
      (¬∃ p, pack "f" sumCode sumGraph 2 = .ok p) ∧
      ∃ p, pack "f" sumCode sumGraph 3 = .ok p ∧ p.count = 3 := by
  have hstraight : Straight sumCode
      (intervals sumCode sumGraph (Liveness.compute sumCode sumGraph)) := by
    apply straight_intervals
    rw [intervals_sumCode]
    intro r iv hm
    simp only [List.mem_cons, Prod.mk.injEq, List.not_mem_nil, or_false] at hm
    rcases hm with ⟨rfl, rfl⟩ | ⟨rfl, rfl⟩ | ⟨rfl, rfl⟩
    · exact ⟨_, rfl, by decide⟩
    · exact ⟨_, rfl, by decide⟩
    · exact ⟨_, rfl, by decide⟩
  obtain ⟨htwo, -⟩ := packs_within_depth "f" sumCode sumGraph 2 hstraight
  obtain ⟨hthree, hcount⟩ := packs_within_depth "f" sumCode sumGraph 3 hstraight
  rw [intervals_sumCode] at htwo hthree hcount
  refine ⟨rfl, hstraight, fun hp ↦ absurd (htwo.mp hp 2 (by decide)) (by decide), ?_⟩
  obtain ⟨p, hp⟩ := hthree.mpr (by decide)
  exact ⟨p, hp, (hcount p hp).trans (by decide)⟩

end MethodCompiler
