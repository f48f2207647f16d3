import Mathlib.Algebra.Order.Ring.Nat
import Mathlib.Data.List.Permutation
import MethodCompiler.Proofs.SharedSlots
import MethodCompiler.Proofs.Success

/-!
# The frame and its limit

A packing gives every accessed register one slot, leaves no slot without an owner, and lets registers
share a slot only while their intervals do not overlap. The limit on slots never changes which slot a
register gets: code has one packing, and it is found under every limit that leaves room for its slots.
-/

namespace MethodCompiler

variable {name : String} {code : List Statement} {g : FlowGraph} {limit limit' q r i : Nat}
  {ivs : List (Nat × Interval)} {f f' : SlotFile} {p : Packing}

/-! ### The registers that have intervals -/

/-- The intervals stand in ascending order of their registers. -/
theorem intervals_ascending (code : List Statement) (g : FlowGraph) (l : Liveness) :
    (intervals code g l).Pairwise (·.1 < ·.1) := by
  have hset : (RegisterSet.ofList ((Touch.ofCode code ++ Touch.ofBlocks g l).map
      (·.register))).Ascending := RegisterSet.Ascending.union List.Pairwise.nil
  refine List.Pairwise.filterMap _ ?_ hset
  intro a b hab e he e' he'
  obtain ⟨-, -, rfl⟩ := Option.map_eq_some_iff.mp he
  obtain ⟨-, -, rfl⟩ := Option.map_eq_some_iff.mp he'
  exact hab

/-- Ascending keys are distinct. -/
theorem nodup_keys {α : Type} {entries : List (Nat × α)} (h : entries.Pairwise (·.1 < ·.1)) :
    (entries.map (·.1)).Nodup :=
  List.pairwise_map.mpr (h.imp Nat.ne_of_lt)

/-- A register has the interval that is listed for it. -/
theorem intervalOf_of_mem {iv : Interval} (h : ivs.Pairwise (·.1 < ·.1)) (hm : (r, iv) ∈ ivs) :
    intervalOf ivs r = iv := by
  rw [intervalOf, find?_of_nodup (nodup_keys h) hm]
  rfl

/-- A register that is written is accessed somewhere. -/
theorem exists_accessedAt_of_written (h : r ∈ (Liveness.compute code g).written) :
    ∃ q, AccessedAt code r q := by
  obtain ⟨s, hs, hr⟩ := Liveness.mem_written_compute.mp h
  obtain ⟨q, hq⟩ := List.mem_iff_getElem?.mp hs
  exact ⟨q, s, hq, Statement.mem_registers_of_mem_writes hr⟩

/-- Only registers that code accesses are ever touched: at the ends of blocks only written ones are. -/
private theorem exists_accessedAt_of_touched (h : ⟨r, q⟩ ∈ touchesOf code g) :
    ∃ q', AccessedAt code r q' := by
  rcases cases_of_touched h with haccessed | ⟨hwritten, -⟩
  · exact ⟨q, haccessed⟩
  · exact exists_accessedAt_of_written hwritten

/-- The registers with intervals are those that code accesses. -/
theorem exists_mem_intervals : (∃ iv, (r, iv) ∈ intervals code g (Liveness.compute code g)) ↔
    ∃ q, AccessedAt code r q := by
  constructor
  · rintro ⟨iv, h⟩
    obtain ⟨r', hr', h⟩ := List.mem_filterMap.mp h
    obtain ⟨_, -, he⟩ := Option.map_eq_some_iff.mp h
    obtain rfl := (Prod.mk.inj he).1
    obtain ⟨t, ht, rfl⟩ := List.mem_map.mp (RegisterSet.mem_ofList.mp hr')
    exact exists_accessedAt_of_touched (g := g) ht
  · rintro ⟨q, hq⟩
    exact (intervalOf_holds (touched_of_accessedAt hq g)).1

/-- Every accessed register has an interval, and this holds all its accesses. -/
def Covers (code : List Statement) (ivs : List (Nat × Interval)) : Prop :=
  ∀ r q, AccessedAt code r q → (r, intervalOf ivs r) ∈ ivs ∧ (intervalOf ivs r).Holds q

/-- The interval of a register covers all its accesses. -/
theorem covers_intervals (code : List Statement) (g : FlowGraph) :
    Covers code (intervals code g (Liveness.compute code g)) := by
  intro r q h
  obtain ⟨⟨iv, hm⟩, hholds⟩ := intervalOf_holds (touched_of_accessedAt h g)
  rw [intervalOf_of_mem (intervals_ascending code g _) hm] at hholds ⊢
  exact ⟨hm, hholds⟩

/-! ### Slots and their owners -/

namespace SlotFile

/-- What else holds of the slots while a walk is at a position. -/
structure Filled (code : List Statement) (ivs : List (Nat × Interval)) (position : Nat)
    (f : SlotFile) : Prop where
  nonempty : ∀ slot ∈ f.slots, slot.owners ≠ []
  /-- The owners of a slot are registers that have it. -/
  owners : ∀ {i slot o}, f.slots[i]? = some slot → o ∈ slot.owners →
    f.slot? o.1 = some i ∧ o.2 = intervalOf ivs o.1
  /-- Only registers that were met have slots. -/
  met : ∀ {r i}, f.slot? r = some i → ∃ q ≤ position, AccessedAt code r q
  /-- A slot is held for the sake of an owner that has not ended. -/
  holding : ∀ slot ∈ f.slots, slot.held = true → ∃ o ∈ slot.owners, position ≤ o.2.stop

/-- A file without slots is filled before the first statement. -/
theorem filled_empty (code : List Statement) (ivs : List (Nat × Interval)) : Filled code ivs 0 {} where
  nonempty := by simp
  owners := by simp
  met := by simp [slot?]
  holding := by simp

/-- A file stays filled when a register that is accessed claims a slot. -/
theorem Filled.claim (h : Filled code ivs q f) (hcovers : Covers code ivs)
    (hr : AccessedAt code r q) (hc : f.claim limit ivs r = some f') : Filled code ivs q f' := by
  rcases gives_of_claim hc with ⟨-, rfl⟩ | ⟨i, slot, hg⟩
  · exact h
  -- a slot is the one that was given, or one of those from before
  have hcases {j : Nat} {slot' : Slot} (hj : f'.slots[j]? = some slot') :
      j = i ∧ slot' = slot.take r (intervalOf ivs r) ∨ f.slots[j]? = some slot' := by
    by_cases hji : j = i
    · subst hji
      exact .inl ⟨rfl, Option.some.inj (hj.symm.trans hg.taken)⟩
    · rw [hg.others hji] at hj
      exact .inr hj
  constructor
  · intro slot' hm
    obtain ⟨j, hj⟩ := List.mem_iff_getElem?.mp hm
    rcases hcases hj with ⟨-, rfl⟩ | hj
    · exact List.cons_ne_nil _ _
    · exact h.nonempty slot' (List.mem_of_getElem? hj)
  · intro j slot' o hj ho
    rcases hcases hj with ⟨rfl, rfl⟩ | hj
    · rcases List.mem_cons.mp ho with rfl | ho
      · exact ⟨by rw [hg.slot?_eq, if_pos rfl], rfl⟩
      · rcases hg.old with hold | ⟨-, hold⟩
        · obtain ⟨hs, hiv⟩ := h.owners hold ho
          exact ⟨(grows_claim hc).kept hs, hiv⟩
        · rw [hold] at ho
          cases ho
    · obtain ⟨hs, hiv⟩ := h.owners hj ho
      exact ⟨(grows_claim hc).kept hs, hiv⟩
  · intro a j ha
    rw [hg.slot?_eq] at ha
    split at ha
    · next he => exact ⟨q, Nat.le_refl q, he ▸ hr⟩
    · exact h.met ha
  · intro slot' hm hheld
    obtain ⟨j, hj⟩ := List.mem_iff_getElem?.mp hm
    rcases hcases hj with ⟨-, rfl⟩ | hj
    · exact ⟨_, List.mem_cons_self, (hcovers r q hr).2.2⟩
    · exact h.holding slot' (List.mem_of_getElem? hj) hheld

/-- A file stays filled when the slots are released that no register needs any more. -/
theorem Filled.release (h : Filled code ivs q f) : Filled code ivs (q + 1) (f.release q) := by
  constructor
  · intro released hm
    obtain ⟨slot, hslot, rfl⟩ := List.mem_map.mp hm
    exact h.nonempty slot hslot
  · intro i released o hi ho
    rw [SlotFile.release, List.getElem?_map] at hi
    obtain ⟨slot, hslot, rfl⟩ := Option.map_eq_some_iff.mp hi
    exact h.owners hslot ho
  · intro r i hr
    obtain ⟨q', hle, hq'⟩ := h.met hr
    exact ⟨q', Nat.le_succ_of_le hle, hq'⟩
  · intro released hm hheld
    obtain ⟨slot, -, rfl⟩ := List.mem_map.mp hm
    simp only [Slot.release, Bool.and_eq_true, Bool.not_eq_true', List.all_eq_false,
      decide_eq_true_eq, Nat.not_le] at hheld
    exact hheld.2

private theorem filled_of_walk (hcovers : Covers code ivs) (hw : walk limit ivs {} 0 code = some f) :
    Filled code ivs code.length f :=
  walk_induction (filled_empty code ivs) (fun h hr hc ↦ h.claim hcovers hr hc)
    (fun h _ ↦ h.release) hw

/-! ### Other limits -/

private theorem claim_of_length_le (hc : f.claim limit ivs r = some f') (h : f'.slots.length ≤ limit') :
    f.claim limit' ivs r = some f' := by
  simp only [claim] at hc ⊢
  split at hc
  · next hs => rwa [if_pos hs]
  · next hs =>
    rw [if_neg hs]
    split at hc
    · exact hc
    · split at hc
      · obtain rfl := Option.some.inj hc
        rw [List.length_append] at h
        exact if_pos h
      · cases hc

/-- A walk ends in the same file under every limit that leaves room for its slots. -/
private theorem walk_of_length_le (hw : walk limit ivs {} 0 code = some f) (h : f.slots.length ≤ limit') :
    walk limit' ivs {} 0 code = some f := by
  obtain ⟨last, hw', rfl⟩ := walk_alongside (R := fun _ f f' ↦ f' = f) (σ := id) limit' ivs
    (fun {q f f₁ f' r} hR _ hc hlast ↦ by
      obtain rfl := hR
      exact ⟨f₁, claim_of_length_le hc (Nat.le_trans hlast.length_le h), rfl⟩)
    (fun {q f f'} hR _ ↦ by
      obtain rfl := hR
      rfl)
    List.drop_zero rfl hw
  have hid : code.map (·.mapRegisters id) = code := by simp [Statement.mapRegisters_id]
  rwa [hid] at hw'

private theorem exists_claims (ivs : List (Nat × Interval)) {rs : List Nat} {f : SlotFile}
    (h : f.slots.length + rs.length ≤ limit) :
    ∃ f', rs.foldlM (claim limit ivs) f = some f' ∧ f'.slots.length ≤ f.slots.length + rs.length := by
  induction rs generalizing f with
  | nil => exact ⟨f, rfl, Nat.le_refl _⟩
  | cons r rest ih =>
    rw [List.length_cons] at h
    have hclaim : ∃ f', f.claim limit ivs r = some f' ∧ f'.slots.length ≤ f.slots.length + 1 := by
      simp only [claim]
      split
      · exact ⟨f, rfl, Nat.le_succ _⟩
      · split
        · exact ⟨_, rfl, by rw [List.length_modify]; exact Nat.le_succ _⟩
        · rw [if_pos (by omega)]
          exact ⟨_, rfl, Nat.le_of_eq List.length_append⟩
    obtain ⟨f₁, hc, hle⟩ := hclaim
    obtain ⟨f', hc', hle'⟩ := ih (f := f₁) (by omega)
    refine ⟨f', ?_, by rw [List.length_cons]; omega⟩
    rw [List.foldlM_cons, hc]
    exact hc'

/-- A slot for each access is always enough. -/
private theorem exists_walk (ivs : List (Nat × Interval)) (rest : List Statement) (f : SlotFile) (q : Nat)
    (h : f.slots.length + (rest.flatMap Statement.registers).length ≤ limit) :
    ∃ f', f.walk limit ivs q rest = some f' := by
  induction rest generalizing f q with
  | nil => exact ⟨f, rfl⟩
  | cons s rest ih =>
    rw [List.flatMap_cons, List.length_append] at h
    have hroom : f.slots.length + s.registers.length ≤ limit := by omega
    obtain ⟨f₁, hc, hle⟩ := exists_claims ivs hroom
    have hlength : (f₁.release q).slots.length = f₁.slots.length := List.length_map _
    obtain ⟨f', hw⟩ := ih (f₁.release q) (q + 1) (by omega)
    refine ⟨f', ?_⟩
    rw [walk, step_eq_some.mpr ⟨f₁, hc, rfl⟩]
    exact hw

end SlotFile

/-! ### Packings -/

namespace Packing

/-- The packing that a finished walk stands for. -/
def ofFile (ivs : List (Nat × Interval)) (f : SlotFile) : Packing where
  count := f.slots.length
  assignment := ivs.filterMap fun (r, _) ↦ (f.slot? r).map (r, ·)
  intervals := ivs

/-- Code is packed by the file that the walk over it ends with. -/
theorem pack_of_walk
    (h : SlotFile.walk limit (MethodCompiler.intervals code g (Liveness.compute code g)) {} 0 code =
      some f) (name : String) : pack name code g limit =
        .ok (ofFile (MethodCompiler.intervals code g (Liveness.compute code g)) f) := by
  simp only [pack, h]
  rfl

/-- A packing comes from the file that the walk over the code ends with. -/
theorem exists_walk_of_pack (h : pack name code g limit = .ok p) :
    ∃ f, SlotFile.walk limit p.intervals {} 0 code = some f ∧ p = ofFile p.intervals f := by
  simp only [pack] at h
  split at h
  · cases h
  · next f hw =>
    obtain rfl := Except.ok.inj h
    exact ⟨f, hw, rfl⟩

/-- Code has one packing. It is found under every limit that leaves room for its slots, and under no
other one. -/
theorem exists_pack_eq (code : List Statement) (g : FlowGraph) : ∃ p : Packing, ∀ name limit,
    pack name code g limit =
      if p.count ≤ limit then .ok p else .error (.registerExhausted name limit) := by
  obtain ⟨f, hw⟩ := SlotFile.exists_walk
    (MethodCompiler.intervals code g (Liveness.compute code g)) code {} 0 (Nat.le_refl _)
  refine ⟨ofFile (MethodCompiler.intervals code g (Liveness.compute code g)) f, fun name limit ↦ ?_⟩
  split
  · next hle => exact pack_of_walk (SlotFile.walk_of_length_le hw hle) name
  · next hlt =>
    cases hw' : SlotFile.walk limit (MethodCompiler.intervals code g (Liveness.compute code g)) {} 0
      code with
    | none => simp only [pack, hw']
    | some f' =>
      -- under a limit with room for both, the two walks are one
      have hle := SlotFile.length_le_of_walk hw'
      have hmax := Nat.le_max_left f.slots.length limit
      have hmax' := Nat.le_trans hle (Nat.le_max_right f.slots.length limit)
      have heq := (SlotFile.walk_of_length_le hw hmax).symm.trans
        (SlotFile.walk_of_length_le hw' hmax')
      obtain rfl := Option.some.inj heq
      exact absurd hle hlt

/-- A register has a slot in a packing when the walk has given it one and code accesses it. -/
theorem mem_assignment {slot : Nat} : (r, slot) ∈ (ofFile ivs f).assignment ↔
    (∃ iv, (r, iv) ∈ ivs) ∧ f.slot? r = some slot := by
  simp only [ofFile, List.mem_filterMap, Prod.exists, Option.map_eq_some_iff, Prod.mk.injEq]
  constructor
  · rintro ⟨a, iv, hm, j, hj, rfl, rfl⟩
    exact ⟨⟨iv, hm⟩, hj⟩
  · rintro ⟨⟨iv, hm⟩, hj⟩
    exact ⟨r, iv, hm, slot, hj, rfl, rfl⟩

private theorem assignment_ascending (h : ivs.Pairwise (·.1 < ·.1)) :
    (ofFile ivs f).assignment.Pairwise (·.1 < ·.1) := by
  refine List.Pairwise.filterMap _ ?_ h
  intro a b hab e he e' he'
  obtain ⟨-, -, rfl⟩ := Option.map_eq_some_iff.mp he
  obtain ⟨-, -, rfl⟩ := Option.map_eq_some_iff.mp he'
  exact hab

/-- The registers of a packing stand in ascending order. -/
theorem assignment_ascending_of_pack (h : pack name code g limit = .ok p) :
    p.assignment.Pairwise (·.1 < ·.1) := by
  obtain ⟨f, -, hp⟩ := exists_walk_of_pack h
  rw [hp]
  apply assignment_ascending
  rw [intervals_of_pack h]
  exact intervals_ascending code g _

/-- The intervals of a packing cover all accesses. -/
theorem covers_of_pack (h : pack name code g limit = .ok p) : Covers code p.intervals := by
  rw [intervals_of_pack h]
  exact covers_intervals code g

/-- The slot of a register in ascending entries is the one of its entry. -/
theorem slotOf_of_mem {slot : Nat} (h : p.assignment.Pairwise (·.1 < ·.1))
    (hm : (r, slot) ∈ p.assignment) : p.slotOf r = slot := by
  rw [slotOf, find?_of_nodup (nodup_keys h) hm]
  rfl

private theorem slotOf_of_not_mem (h : ∀ slot, (r, slot) ∉ p.assignment) : p.slotOf r = r := by
  have hnone : p.assignment.find? (·.1 == r) = none := by
    rw [List.find?_eq_none]
    rintro ⟨a, slot⟩ hm ha
    obtain rfl := beq_iff_eq.mp ha
    exact h slot hm
  rw [slotOf, hnone]
  rfl

private theorem clashes_eq_nil {owners : List Nat} (h : owners.Pairwise fun a b ↦ p.clash a b = false) :
    p.clashes owners = [] := by
  induction owners with
  | nil => rfl
  | cons a rest ih =>
    obtain ⟨ha, hrest⟩ := List.pairwise_cons.mp h
    have hnone : rest.filter (p.clash a) = [] := by
      rw [List.filter_eq_nil_iff]
      intro b hb
      rw [ha b hb]
      exact Bool.false_ne_true
    rw [clashes, hnone, ih hrest]
    rfl

/-- How packing rewrites an operand: a register takes its slot, also where an index names it, and
everything else stays. An index of a register that nothing accesses has no slot to take. -/
inductive Rewrites (p : Packing) : Operand → Operand → Prop
  | register {r slot : Nat} {ty : Ty} : (r, slot) ∈ p.assignment →
      Rewrites p (.register r ty) (.register slot ty)
  | index {r slot : Nat} : (r, slot) ∈ p.assignment →
      Rewrites p (.immediate (.registerIndex r)) (.immediate (.registerIndex slot))
  | idle {r : Nat} : (∀ slot, (r, slot) ∉ p.assignment) →
      Rewrites p (.immediate (.registerIndex r)) (.immediate (.registerIndex r))
  | other {o : Operand} : o.register? = none → (∀ r, o ≠ .immediate (.registerIndex r)) →
      Rewrites p o o

/-- What a packing of some code promises. -/
structure Proper (p : Packing) (code : List Statement) (g : FlowGraph) : Prop where
  /-- Every accessed register has exactly one slot. -/
  slot : ∀ r q, AccessedAt code r q → ∃! slot, (r, slot) ∈ p.assignment
  /-- The slots are numbered without gaps, and each of them has an owner. -/
  owner : ∀ slot, slot < p.count ↔ ∃ r, (r, slot) ∈ p.assignment
  intervals_eq : p.intervals = MethodCompiler.intervals code g (Liveness.compute code g)
  /-- Every register with a slot has an interval. -/
  interval : ∀ {r slot}, (r, slot) ∈ p.assignment → ∃ iv, (r, iv) ∈ p.intervals
  /-- Registers with the same slot have intervals that do not overlap. -/
  disjoint : ∀ {r r' slot iv iv'}, (r, slot) ∈ p.assignment → (r', slot) ∈ p.assignment → r ≠ r' →
    (r, iv) ∈ p.intervals → (r', iv') ∈ p.intervals → iv.overlaps iv' = false
  conflicts : p.conflicts = []
  /-- Nothing but the registers is rewritten, and these take their slots. -/
  rewrites : List.Forall₂ (fun s s' ↦ s' = { s with operands := s'.operands } ∧
    List.Forall₂ p.Rewrites s.operands s'.operands) code (p.apply code)

private theorem clash_eq_false {a b : Nat} (h : ∀ iv iv', (a, iv) ∈ p.intervals → (b, iv') ∈ p.intervals →
    iv.overlaps iv' = false) : p.clash a b = false := by
  rw [clash]
  split
  · next k x k' y hx hy =>
    obtain rfl : k = a := by simpa using List.find?_some hx
    obtain rfl : k' = b := by simpa using List.find?_some hy
    exact h x y (List.mem_of_find?_eq_some hx) (List.mem_of_find?_eq_some hy)
  · rfl

private theorem conflicts_eq_nil (hascending : p.assignment.Pairwise (·.1 < ·.1))
    (hdisjoint : ∀ {r r' slot iv iv'}, (r, slot) ∈ p.assignment → (r', slot) ∈ p.assignment →
      r ≠ r' → (r, iv) ∈ p.intervals → (r', iv') ∈ p.intervals → iv.overlaps iv' = false) :
    p.conflicts = [] := by
  refine List.flatMap_eq_nil_iff.mpr fun slot _ ↦ clashes_eq_nil ?_
  refine List.pairwise_map.mpr ((hascending.filter (·.2 == slot)).imp_of_mem ?_)
  rintro ⟨a, i⟩ ⟨b, j⟩ ha hb hlt
  obtain ⟨hma, hi⟩ := List.mem_filter.mp ha
  obtain ⟨hmb, hj⟩ := List.mem_filter.mp hb
  have hij : i = j := (beq_iff_eq.mp hi).trans (beq_iff_eq.mp hj).symm
  subst hij
  exact clash_eq_false fun iv iv' ↦ hdisjoint hma hmb (Nat.ne_of_lt hlt)

/-- Renumbering by slots rewrites the registers that have slots, and needs all that stand as operands to
have one. -/
private theorem rewrites_mapRegisters {s : Statement} (hascending : p.assignment.Pairwise (·.1 < ·.1))
    (hslot : ∀ r ∈ s.registers, ∃ slot, (r, slot) ∈ p.assignment) :
    List.Forall₂ p.Rewrites s.operands (s.mapRegisters p.slotOf).operands := by
  refine List.forall₂_map_right_iff.mpr (List.forall₂_same.mpr fun o ho ↦ ?_)
  cases o with
  | register r ty =>
    obtain ⟨slot, hm⟩ := hslot r (Statement.mem_registers_of_operand ho)
    rw [Operand.mapRegister, slotOf_of_mem hascending hm]
    exact .register hm
  | immediate v =>
    cases v with
    | registerIndex r =>
      rw [Operand.mapRegister]
      by_cases hr : ∃ slot, (r, slot) ∈ p.assignment
      · obtain ⟨slot, hm⟩ := hr
        rw [slotOf_of_mem hascending hm]
        exact .index hm
      · rw [slotOf_of_not_mem (not_exists.mp hr)]
        exact .idle (not_exists.mp hr)
    | _ => exact .other rfl (by rintro r ⟨⟩)
  | _ => exact .other rfl (by rintro r ⟨⟩)

/-- A packing that was found keeps its promises. -/
theorem proper_of_pack (h : pack name code g limit = .ok p) : p.Proper code g := by
  obtain ⟨f, hw, hp⟩ := exists_walk_of_pack h
  have hivs := intervals_of_pack h
  have hascending : p.intervals.Pairwise (·.1 < ·.1) := by
    rw [hivs]
    exact intervals_ascending code g _
  have hassignment := assignment_ascending_of_pack h
  have hfits := SlotFile.fits_of_walk hw
  have hfilled := SlotFile.filled_of_walk (covers_of_pack h) hw
  have hmem {r slot : Nat} : (r, slot) ∈ p.assignment ↔ f.slot? r = some slot := by
    rw [hp, mem_assignment, hivs, exists_mem_intervals]
    refine ⟨And.right, fun hr ↦ ⟨?_, hr⟩⟩
    obtain ⟨q, -, hq⟩ := hfilled.met hr
    exact ⟨q, hq⟩
  have hslot {r q : Nat} (hr : AccessedAt code r q) : ∃ slot, (r, slot) ∈ p.assignment := by
    obtain ⟨slot, hs⟩ := hfits.exists_slot hr
    exact ⟨slot, hmem.mpr hs⟩
  have hdisjoint : ∀ {r r' slot iv iv'}, (r, slot) ∈ p.assignment → (r', slot) ∈ p.assignment →
      r ≠ r' → (r, iv) ∈ p.intervals → (r', iv') ∈ p.intervals → iv.overlaps iv' = false := by
    intro r r' slot iv iv' hr hr' hne hiv hiv'
    have hapart := hfits.apart r r' slot (hmem.mp hr) (hmem.mp hr') hne
    rw [← intervalOf_of_mem hascending hiv, ← intervalOf_of_mem hascending hiv']
    exact hapart.disjoint
  refine ⟨?_, ?_, hivs, ?_, hdisjoint, conflicts_eq_nil hassignment hdisjoint, ?_⟩
  · intro r q hr
    obtain ⟨slot, hs⟩ := hslot hr
    refine ⟨slot, hs, fun slot' hs' ↦ ?_⟩
    exact Option.some.inj ((hmem.mp hs').symm.trans (hmem.mp hs))
  · intro slot
    rw [show p.count = f.slots.length by rw [hp]; rfl]
    constructor
    · intro hlt
      obtain ⟨o, ho⟩ := List.exists_mem_of_ne_nil _ (hfilled.nonempty _ (List.getElem_mem hlt))
      exact ⟨o.1, hmem.mpr (hfilled.owners (List.getElem?_eq_getElem hlt) ho).1⟩
    · rintro ⟨r, hr⟩
      obtain ⟨_, hget, -⟩ := hfits.owned r slot (hmem.mp hr)
      exact (List.getElem?_eq_some_iff.mp hget).1
  · intro r slot hr
    rw [hp] at hr
    exact (mem_assignment.mp hr).1
  · refine List.forall₂_map_right_iff.mpr (List.forall₂_same.mpr fun s hs ↦ ⟨rfl, ?_⟩)
    obtain ⟨q, hq⟩ := List.mem_iff_getElem?.mp hs
    exact rewrites_mapRegisters hassignment fun r hr ↦ hslot ⟨s, hq, hr⟩

end Packing

/-- A packing that is found is free of conflicts, leaves no slot unused and rewrites nothing but
registers. Some number of slots depends on the code alone: under every limit from it on, the code gets
the same packing with just so many slots, and under every smaller one the code stays as it is. -/
theorem packing_from_least_limit (code : List Statement) (g : FlowGraph) :
    (∀ name limit p code', packCode name code g limit = (.ok p, code') →
      p.Proper code g ∧ p.count ≤ limit ∧ code' = p.apply code) ∧
    ∃ n assignment packed, ∀ name limit,
      (n ≤ limit → ∃ p, packCode name code g limit = (.ok p, packed) ∧ p.count = n ∧
        p.assignment = assignment) ∧
      (limit < n →
        packCode name code g limit = (.error (.registerExhausted name limit), code)) := by
  constructor
  · intro name limit p code' h
    obtain ⟨hp, hcode⟩ := Packing.pack_of_packCode (congrArg Prod.fst h)
    rw [h] at hcode
    exact ⟨Packing.proper_of_pack hp, Packing.count_le hp, hcode⟩
  · obtain ⟨p, hp⟩ := Packing.exists_pack_eq code g
    refine ⟨p.count, p.assignment, p.apply code, fun name limit ↦ ⟨fun hle ↦ ?_, fun hlt ↦ ?_⟩⟩
    · refine ⟨p, ?_, rfl, rfl⟩
      rw [packCode, hp, if_pos hle]
    · rw [packCode, hp, if_neg (Nat.not_le.mpr hlt)]

/-- Register 7 is only named by an index, and can have the slot of register 5. -/
private def indexCode : List Statement :=
  [.of .move [.register 5 .i32, .int 1],
    .of .move [.register 9 .i32, .register 5 .i32],
    .of .reref [.immediate (.registerIndex 7), .register 9 .i32],
    .of .ret []]

private def indexGraph : FlowGraph where
  blocks := [⟨0, 3⟩]
  regions := ⟨List.replicate 4 none, []⟩
  edges := []

private def indexPacking : Packing where
  count := 2
  assignment := [(5, 0), (7, 0), (9, 1)]
  intervals := [(5, ⟨0, 1⟩), (7, ⟨2, 2⟩), (9, ⟨1, 2⟩)]

/-- Two slots are enough for the three registers and one is not. -/
theorem index_packed_from_two_slots :
    FlowGraph.build indexCode [] = .ok indexGraph ∧
      packCode "f" indexCode indexGraph 2 = (.ok indexPacking, indexPacking.apply indexCode) ∧
      indexPacking.Proper indexCode indexGraph ∧
      packCode "f" indexCode indexGraph 1 = (.error (.registerExhausted "f" 1), indexCode) := by
  have hg : FlowGraph.build indexCode [] = .ok indexGraph := rfl
  have htwo : packCode "f" indexCode indexGraph 2 =
      (.ok indexPacking, indexPacking.apply indexCode) := rfl
  obtain ⟨hproper, n, assignment, packed, hlimit⟩ := packing_from_least_limit indexCode indexGraph
  refine ⟨hg, htwo, (hproper "f" 2 _ _ htwo).1, (hlimit "f" 1).2 ?_⟩
  -- under the limit 2 the code is packed, so the least limit is the number of its slots
  by_contra hn
  obtain ⟨p, hp, hcount, -⟩ := (hlimit "f" 2).1 (by omega)
  rw [htwo] at hp
  obtain rfl := Except.ok.inj (Prod.mk.inj hp).1
  have : indexPacking.count = 2 := rfl
  omega

end MethodCompiler
