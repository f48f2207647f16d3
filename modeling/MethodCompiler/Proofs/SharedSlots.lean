import MethodCompiler.Proofs.LiveSets
import MethodCompiler.Proofs.SlotWalks

/-!
# Registers that share a slot

A slot is handed on only when its owners have ended, and only to an interval that overlaps none of
theirs. Of two registers that share a slot, one has therefore ended before the other is first
accessed, and their intervals do not overlap.
-/

namespace MethodCompiler

/-! ### Intervals -/

namespace Interval

/-- The position lies in the interval. -/
def Holds (iv : Interval) (position : Nat) : Prop := iv.start ≤ position ∧ position ≤ iv.stop

private theorem holds_touch {iv : Interval} {p q : Nat} (h : iv.Holds p ∨ p = q) :
    (iv.touch q).Holds p := by
  simp only [Holds, touch] at h ⊢
  omega

/-- The span of some positions holds them all. -/
private theorem holds_span {ps : List Nat} {iv : Interval} {p : Nat} (h : span? ps = some iv)
    (hp : p ∈ ps) : iv.Holds p := by
  have fold (qs : List Nat) (iv : Interval) (h : iv.Holds p ∨ p ∈ qs) :
      (qs.foldl touch iv).Holds p := by
    induction qs generalizing iv with
    | nil => simpa using h
    | cons q rest ih =>
      apply ih
      rcases h with h | h
      · exact .inl (holds_touch (.inl h))
      · rcases List.mem_cons.mp h with rfl | h
        · exact .inl (holds_touch (.inr rfl))
        · exact .inr h
  cases ps with
  | nil => cases hp
  | cons q rest =>
    obtain rfl := Option.some.inj h
    apply fold
    rcases List.mem_cons.mp hp with rfl | hp
    · exact .inl ⟨Nat.le_refl _, Nat.le_refl _⟩
    · exact .inr hp

private theorem overlaps_comm (a b : Interval) : a.overlaps b = b.overlaps a := Bool.and_comm _ _

end Interval

/-- All places where registers have to keep their values. -/
def touchesOf (code : List Statement) (g : FlowGraph) : List Touch :=
  Touch.ofCode code ++ Touch.ofBlocks g (Liveness.compute code g)

/-- A register that is touched at a position has an interval, and this holds the position. -/
theorem intervalOf_holds {code : List Statement} {g : FlowGraph} {r p : Nat}
    (h : ⟨r, p⟩ ∈ touchesOf code g) :
    (∃ iv, (r, iv) ∈ intervals code g (Liveness.compute code g)) ∧
      (intervalOf (intervals code g (Liveness.compute code g)) r).Holds p := by
  have hp : p ∈ ((touchesOf code g).filter (·.register == r)).map (·.position) :=
    List.mem_map.mpr ⟨⟨r, p⟩, by simpa using h, rfl⟩
  cases hs : Interval.span? (((touchesOf code g).filter (·.register == r)).map (·.position)) with
  | none =>
    -- Only the empty list has no span.
    unfold Interval.span? at hs
    split at hs
    · next he => rw [he] at hp; cases hp
    · cases hs
  | some iv =>
    have hm : (r, iv) ∈ intervals code g (Liveness.compute code g) := by
      refine List.mem_filterMap.mpr ⟨r, ?_, ?_⟩
      · rw [RegisterSet.mem_ofList]
        exact List.mem_map.mpr ⟨_, h, rfl⟩
      · exact congrArg (Option.map (Prod.mk r)) hs
    refine ⟨⟨iv, hm⟩, ?_⟩
    have hf : ((intervals code g (Liveness.compute code g)).find? (·.1 == r)).isSome :=
      List.find?_isSome.mpr ⟨_, hm, by simp⟩
    obtain ⟨⟨r', iv'⟩, hf⟩ := Option.isSome_iff_exists.mp hf
    obtain rfl : r' = r := by simpa using List.find?_some hf
    -- Equal registers have equal intervals, so the first entry is as good as any.
    obtain ⟨_, -, hm'⟩ := List.mem_filterMap.mp (List.mem_of_find?_eq_some hf)
    obtain ⟨iv'', hs', heq⟩ := Option.map_eq_some_iff.mp hm'
    obtain ⟨rfl, rfl⟩ := Prod.mk.inj heq
    rw [intervalOf, hf, Option.map_some, Option.getD_some]
    exact Interval.holds_span hs' hp

/-! ### Slots -/

/-- Two registers never hold values at the same time: their intervals do not overlap, and one of them
has ended before any access of the other. -/
structure Apart (code : List Statement) (ivs : List (Nat × Interval)) (r r' : Nat) : Prop where
  disjoint : (intervalOf ivs r).overlaps (intervalOf ivs r') = false
  ordered : (∀ p, AccessedAt code r' p → (intervalOf ivs r).stop < p) ∨
    ∀ p, AccessedAt code r p → (intervalOf ivs r').stop < p

private theorem Apart.symm {code : List Statement} {ivs : List (Nat × Interval)} {r r' : Nat}
    (h : Apart code ivs r r') : Apart code ivs r' r where
  disjoint := by rw [Interval.overlaps_comm]; exact h.disjoint
  ordered := h.ordered.symm

namespace SlotFile

/-- What holds of the slots before the statement at a position takes its own. -/
structure Fits (code : List Statement) (ivs : List (Nat × Interval)) (position : Nat)
    (f : SlotFile) : Prop where
  owned : ∀ r i, f.slot? r = some i →
    ∃ slot, f.slots[i]? = some slot ∧ (r, intervalOf ivs r) ∈ slot.owners
  /-- The owners of a free slot have ended. -/
  ended : ∀ slot ∈ f.slots, slot.held = false → ∀ o ∈ slot.owners, o.2.stop < position
  apart : ∀ r r' i, f.slot? r = some i → f.slot? r' = some i → r ≠ r' → Apart code ivs r r'
  /-- Every register met so far has a slot. -/
  assigned : ∀ p < position, ∀ r, AccessedAt code r p → (f.slot? r).isSome

variable {code : List Statement} {ivs : List (Nat × Interval)} {position limit r : Nat}
  {f f' : SlotFile}

/-- A file without slots fits before the first statement. -/
theorem fits_empty (code : List Statement) (ivs : List (Nat × Interval)) : Fits code ivs 0 {} where
  owned := by simp [slot?]
  ended := by simp
  apart := by simp [slot?]
  assigned := by simp

/-- A file goes on to fit when a register claims a slot. -/
theorem Fits.claim (h : Fits code ivs position f) (hc : f.claim limit ivs r = some f') :
    Fits code ivs position f' := by
  rcases gives_of_claim hc with ⟨-, rfl⟩ | ⟨i, slot, hg⟩
  · exact h
  have hfree : ∀ o ∈ slot.owners,
      o.2.overlaps (intervalOf ivs r) = false ∧ (f.slots[i]? = some slot → o.2.stop < position) := by
    have ha := hg.accepts
    simp only [Slot.accepts, Bool.and_eq_true, Bool.not_eq_true', List.all_eq_true] at ha
    exact fun o ho ↦ ⟨ha.2 o ho, fun hs ↦ h.ended slot (List.mem_of_getElem? hs) ha.1 o ho⟩
  constructor
  · intro r' j hj
    rw [hg.slot?_eq] at hj
    split at hj
    · next he =>
      obtain rfl := Option.some.inj hj
      exact ⟨_, hg.taken, by simp [Slot.take, he]⟩
    · obtain ⟨slot', hs', hm⟩ := h.owned r' j hj
      by_cases hji : j = i
      · subst hji
        rcases hg.old with ho | ⟨ho, -⟩
        · obtain rfl : slot = slot' := Option.some.inj (ho.symm.trans hs')
          exact ⟨_, hg.taken, List.mem_cons_of_mem _ hm⟩
        · rw [ho] at hs'
          cases hs'
      · exact ⟨slot', by rw [hg.others hji]; exact hs', hm⟩
  · intro slot' hm hh o ho
    obtain ⟨j, hj⟩ := List.mem_iff_getElem?.mp hm
    by_cases hji : j = i
    · subst hji
      obtain rfl := Option.some.inj (hg.taken.symm.trans hj)
      cases hh
    · rw [hg.others hji] at hj
      exact h.ended slot' (List.mem_of_getElem? hj) hh o ho
  · -- The new owner meets the old ones: they end before this position, and it comes first here.
    have hnew (r' : Nat) (hr' : f.slot? r' = some i) : Apart code ivs r' r := by
      obtain ⟨slot', hs', hm⟩ := h.owned r' i hr'
      rcases hg.old with hold | ⟨hold, -⟩
      · obtain rfl := Option.some.inj (hold.symm.trans hs')
        obtain ⟨hd, hs⟩ := hfree _ hm
        refine ⟨hd, .inl ?_⟩
        intro p hp
        have hle : position ≤ p := by
          apply Nat.le_of_not_lt
          intro hlt
          have := h.assigned p hlt r hp
          rw [hg.fresh] at this
          cases this
        exact Nat.lt_of_lt_of_le (hs hold) hle
      · rw [hold] at hs'
        cases hs'
    intro a a' j ha ha' hne
    rw [hg.slot?_eq] at ha ha'
    split at ha
    · next he =>
      subst he
      obtain rfl := Option.some.inj ha
      rw [if_neg hne] at ha'
      exact (hnew a' ha').symm
    · split at ha'
      · next he =>
        subst he
        obtain rfl := Option.some.inj ha'
        exact hnew a ha
      · exact h.apart a a' j ha ha' hne
  · intro p hp a ha
    exact (grows_claim hc).isSome (h.assigned p hp a ha)

/-- Once the registers of a statement have their slots, those that end there can be freed. -/
theorem Fits.release (h : Fits code ivs position f)
    (hall : ∀ r, AccessedAt code r position → (f.slot? r).isSome) :
    Fits code ivs (position + 1) (f.release position) where
  owned := by
    intro r i hi
    obtain ⟨slot, hslot, hm⟩ := h.owned r i hi
    exact ⟨slot.release position, by simp [SlotFile.release, hslot], hm⟩
  ended := by
    intro released hr hh o ho
    obtain ⟨slot, hm, rfl⟩ := List.mem_map.mp hr
    simp only [Slot.release, Bool.and_eq_false_imp, Bool.not_eq_false', List.all_eq_true,
      decide_eq_true_eq] at hh
    cases hheld : slot.held with
    | false => exact Nat.lt_succ_of_lt (h.ended slot hm hheld o ho)
    | true => exact Nat.lt_succ_of_le (hh hheld o ho)
  apart := h.apart
  assigned := by
    intro p hp r hr
    rcases Nat.lt_succ_iff_lt_or_eq.mp hp with hp | rfl
    · exact h.assigned p hp r hr
    · exact hall r hr

/-- What a walk over all the code leaves. -/
theorem fits_of_walk (hw : walk limit ivs {} 0 code = some f) : Fits code ivs code.length f :=
  walk_induction (fits_empty code ivs) (fun h _ hc ↦ h.claim hc) Fits.release hw

/-- Behind the code, every accessed register has a slot. -/
theorem Fits.exists_slot (h : Fits code ivs code.length f) {p : Nat} (hr : AccessedAt code r p) :
    ∃ i, f.slot? r = some i := by
  obtain ⟨s, hs, hm⟩ := hr
  have hlt := (List.getElem?_eq_some_iff.mp hs).1
  exact Option.isSome_iff_exists.mp (h.assigned p hlt r ⟨s, hs, hm⟩)

/-- A walk hands out no more slots than there may be. -/
theorem length_le_of_walk (hw : walk limit ivs {} 0 code = some f) : f.slots.length ≤ limit := by
  refine walk_induction (P := fun _ f ↦ f.slots.length ≤ limit) (Nat.zero_le limit) ?_ ?_ hw
  · intro q f f₁ r h _ hc
    rcases claim_cases hc with ⟨-, rfl⟩ | ⟨-, ⟨i, -, rfl⟩ | ⟨-, hlt, rfl⟩⟩
    · exact h
    · rwa [List.length_modify]
    · rw [List.length_append]
      exact hlt
  · intro q f h _
    rwa [SlotFile.release, List.length_map]

end SlotFile

/-! ### Packings -/

/-- A register is touched where it is accessed. -/
theorem touched_of_accessedAt {code : List Statement} {r p : Nat} (h : AccessedAt code r p)
    (g : FlowGraph) : ⟨r, p⟩ ∈ touchesOf code g := by
  obtain ⟨s, hs, hr⟩ := h
  obtain ⟨a, ha, rfl⟩ := List.mem_map.mp hr
  apply List.mem_append_left
  refine List.mem_flatMap.mpr ⟨(s, p), List.mk_mem_zipIdx_iff_getElem?.mpr hs, ?_⟩
  exact List.mem_map.mpr ⟨a, ha, rfl⟩

/-- Why a register is touched: it is accessed, or it is written somewhere and is live into a block from
the first position or out of one at the last. -/
theorem cases_of_touched {code : List Statement} {g : FlowGraph} {r p : Nat}
    (h : ⟨r, p⟩ ∈ touchesOf code g) : AccessedAt code r p ∨
      r ∈ (Liveness.compute code g).written ∧ ∃ b block, g.blocks[b]? = some block ∧
        (r ∈ (Liveness.compute code g).liveIn.getD b [] ∧ p = block.start ∨
          r ∈ (Liveness.compute code g).liveOut.getD b [] ∧ p = block.last) := by
  rcases List.mem_append.mp h with h | h
  · obtain ⟨⟨s, q⟩, hs, h⟩ := List.mem_flatMap.mp h
    obtain ⟨a, ha, he⟩ := List.mem_map.mp h
    obtain ⟨rfl, rfl⟩ := Touch.mk.inj he
    exact .inl ⟨s, List.mk_mem_zipIdx_iff_getElem?.mp hs, List.mem_map.mpr ⟨a, ha, rfl⟩⟩
  · right
    obtain ⟨⟨block, b⟩, hb, h⟩ := List.mem_flatMap.mp h
    have hblock := List.mk_mem_zipIdx_iff_getElem?.mp hb
    rcases List.mem_append.mp h with h | h
    · obtain ⟨r', hr', he⟩ := List.mem_map.mp h
      obtain ⟨rfl, rfl⟩ := Touch.mk.inj he
      obtain ⟨hlive, hwritten⟩ := RegisterSet.mem_inter.mp hr'
      exact ⟨hwritten, b, block, hblock, .inl ⟨hlive, rfl⟩⟩
    · obtain ⟨r', hr', he⟩ := List.mem_map.mp h
      obtain ⟨rfl, rfl⟩ := Touch.mk.inj he
      obtain ⟨hlive, hwritten⟩ := RegisterSet.mem_inter.mp hr'
      exact ⟨hwritten, b, block, hblock, .inr ⟨hlive, rfl⟩⟩

/-- The slot of a register in the finished assignment is the one that the walk gave it. -/
private theorem find?_assignment {ivs : List (Nat × Interval)} {f : SlotFile} {r i : Nat}
    (hm : ∃ iv, (r, iv) ∈ ivs) (hi : f.slot? r = some i) :
    (ivs.filterMap fun (r, _) ↦ (f.slot? r).map (r, ·)).find? (·.1 == r) = some (r, i) := by
  induction ivs with
  | nil => simp at hm
  | cons e rest ih =>
    obtain ⟨a, iv⟩ := e
    by_cases ha : a = r
    · subst ha
      simp [hi]
    · obtain ⟨iv', hm⟩ := hm
      have hr : ∃ iv, (r, iv) ∈ rest := by
        rcases List.mem_cons.mp hm with he | hm
        · exact absurd (Prod.mk.inj he).1.symm ha
        · exact ⟨iv', hm⟩
      cases hs : f.slot? a with
      | none => simpa [hs] using ih hr
      | some j => simpa [hs, ha] using ih hr

namespace Packing

variable {name : String} {code : List Statement} {g : FlowGraph} {limit : Nat} {p : Packing}

/-- The intervals of a packing are those of the code. -/
theorem intervals_of_pack (h : pack name code g limit = .ok p) :
    p.intervals = MethodCompiler.intervals code g (Liveness.compute code g) := by
  simp only [pack] at h
  split at h
  · cases h
  · obtain rfl := Except.ok.inj h
    rfl

/-- A packing comes from a walk over all the code, which has given every accessed register its slot. -/
theorem exists_of_pack (h : pack name code g limit = .ok p) :
    ∃ f, SlotFile.walk limit p.intervals {} 0 code = some f ∧ p.count = f.slots.length ∧
      SlotFile.Fits code p.intervals code.length f ∧
      ∀ r q, AccessedAt code r q → f.slot? r = some (p.slotOf r) := by
  rw [intervals_of_pack h]
  simp only [pack] at h
  split at h
  · cases h
  · next f hw =>
    have hf := SlotFile.fits_of_walk hw
    obtain rfl := Except.ok.inj h
    refine ⟨f, hw, rfl, hf, fun r q hr ↦ ?_⟩
    obtain ⟨i, hi⟩ := hf.exists_slot hr
    have ht := (intervalOf_holds (touched_of_accessedAt hr g)).1
    simp [slotOf, find?_assignment ht hi, hi]

/-- Registers that share a slot after packing never hold values at the same time. -/
theorem apart_of_slotOf_eq (h : pack name code g limit = .ok p) {r r' q q' : Nat}
    (hr : AccessedAt code r q) (hr' : AccessedAt code r' q') (hne : r ≠ r')
    (he : p.slotOf r = p.slotOf r') : Apart code p.intervals r r' := by
  obtain ⟨f, -, -, hf, hslot⟩ := exists_of_pack h
  exact hf.apart r r' _ (hslot r q hr) (by rw [he]; exact hslot r' q' hr') hne

/-- Every accessed register has a slot of the frame. -/
theorem slotOf_lt_count (h : pack name code g limit = .ok p) {r q : Nat}
    (hr : AccessedAt code r q) : p.slotOf r < p.count := by
  obtain ⟨f, -, hcount, hf, hslot⟩ := exists_of_pack h
  obtain ⟨slot, hget, -⟩ := hf.owned r _ (hslot r q hr)
  rw [hcount]
  exact (List.getElem?_eq_some_iff.mp hget).1

/-- Code that is packed where it stands has slots in place of its registers. -/
theorem pack_of_packCode (h : (packCode name code g limit).1 = .ok p) :
    pack name code g limit = .ok p ∧ (packCode name code g limit).2 = p.apply code := by
  cases hpack : pack name code g limit with
  | error e =>
    rw [packCode, hpack] at h
    cases h
  | ok p' =>
    rw [packCode, hpack] at h ⊢
    cases h
    exact ⟨rfl, rfl⟩

/-- The frame has no more slots than it may have. -/
theorem count_le (h : pack name code g limit = .ok p) : p.count ≤ limit := by
  obtain ⟨f, hwalk, hcount, -⟩ := exists_of_pack h
  rw [hcount]
  exact SlotFile.length_le_of_walk hwalk

end Packing

end MethodCompiler
