import MethodCompiler.Frame.Packing

/-!
# Walks that hand out slots

A walk over code lets the registers of one statement after the other claim slots, and frees the slots
that end at the statement. What all claims and releases keep holds behind the walk. The same goes for
what they keep of two walks side by side, where the second one sees the registers under other numbers.
-/

namespace MethodCompiler

/-! ### Accesses -/

namespace Statement

/-- The registers that a statement accesses. -/
def registers (s : Statement) : List Nat := s.accesses.map (·.register)

/-- What a statement reads is among its registers. -/
theorem mem_registers_of_mem_reads {s : Statement} {r : Nat} (h : r ∈ s.reads) :
    r ∈ s.registers := by
  obtain ⟨a, ha, rfl⟩ := List.mem_map.mp h
  exact List.mem_map.mpr ⟨a, (List.mem_filter.mp ha).1, rfl⟩

/-- What a statement writes is among its registers. -/
theorem mem_registers_of_mem_writes {s : Statement} {r : Nat} (h : r ∈ s.writes) :
    r ∈ s.registers := by
  obtain ⟨a, ha, rfl⟩ := List.mem_map.mp h
  exact List.mem_map.mpr ⟨a, (List.mem_filter.mp ha).1, rfl⟩

/-- A label writes no register. -/
theorem writes_eq_nil_of_isLabel {s : Statement} (h : s.isLabel = true) : s.writes = [] := by
  have hop : s.op = .label := by simpa [isLabel] using h
  have hout : s.op.output = .none := by
    rw [hop]
    rfl
  simp only [writes, List.map_eq_nil_iff, List.filter_eq_nil_iff, accesses, List.mem_filterMap,
    Prod.exists, hout]
  rintro a ⟨operand, i, -, ha⟩
  cases operand with
  | register r ty =>
    obtain rfl := Option.some.inj ha
    simp
  | immediate v => cases v <;> simp [accessAt] at ha
  | _ => cases ha

private theorem accessAt_mapRegister (f : Nat → Nat) (output : Opcode.Output) (i : Nat)
    (o : Operand) : accessAt output i (o.mapRegister f) =
      (accessAt output i o).map fun a ↦ { a with register := f a.register } := by
  cases o with
  | immediate v =>
    cases v <;> simp only [Operand.mapRegister, accessAt, Option.map_none]
    split <;> rfl
  | _ => rfl

/-- Renumbering registers renumbers the accesses and keeps everything else about them. -/
theorem accesses_mapRegisters (f : Nat → Nat) (s : Statement) :
    (s.mapRegisters f).accesses = s.accesses.map fun a ↦ { a with register := f a.register } := by
  simp only [accesses, mapRegisters, List.zipIdx_map, List.filterMap_map, List.map_filterMap]
  congr 1
  funext ⟨o, i⟩
  exact accessAt_mapRegister f s.op.output i o

/-- A statement with other registers reads what the old ones are renumbered to. -/
theorem reads_mapRegisters (f : Nat → Nat) (s : Statement) :
    (s.mapRegisters f).reads = s.reads.map f := by
  simp only [reads, accesses_mapRegisters, List.filter_map, List.map_map]
  rfl

/-- A statement with other registers writes what the old ones are renumbered to. -/
theorem writes_mapRegisters (f : Nat → Nat) (s : Statement) :
    (s.mapRegisters f).writes = s.writes.map f := by
  simp only [writes, accesses_mapRegisters, List.filter_map, List.map_map]
  rfl

/-- The registers of a statement are renumbered one by one. -/
theorem registers_mapRegisters (f : Nat → Nat) (s : Statement) :
    (s.mapRegisters f).registers = s.registers.map f := by
  simp only [registers, accesses_mapRegisters, List.map_map]
  rfl

/-- A register that stands as an operand is accessed. -/
theorem mem_registers_of_operand {s : Statement} {r : Nat} {ty : Ty}
    (h : .register r ty ∈ s.operands) : r ∈ s.registers := by
  obtain ⟨i, hi⟩ := List.mem_iff_getElem?.mp h
  refine List.mem_map.mpr ⟨_, List.mem_filterMap.mpr ⟨(.register r ty, i), ?_, rfl⟩, rfl⟩
  exact List.mk_mem_zipIdx_iff_getElem?.mpr hi

/-- Renumbering each register to itself changes nothing. -/
theorem mapRegisters_id (s : Statement) : s.mapRegisters id = s := by
  have hid : Operand.mapRegister id = id := by
    funext o
    cases o with
    | immediate v => cases v <;> rfl
    | _ => rfl
  rw [mapRegisters, hid, List.map_id]

end Statement

/-- A register is accessed at a position of some code. -/
def AccessedAt (code : List Statement) (r position : Nat) : Prop :=
  ∃ s, code[position]? = some s ∧ r ∈ s.registers

/-! ### Claims -/

/-- The interval of a register in a list of intervals. -/
def intervalOf (ivs : List (Nat × Interval)) (r : Nat) : Interval :=
  ((ivs.find? (·.1 == r)).map (·.2)).getD (Interval.single 0)

namespace SlotFile

variable {code rest : List Statement} {ivs ivs' : List (Nat × Interval)} {limit limit' q r : Nat}
  {f f' f₁ last : SlotFile}

/-- The last assignment of a register is the one that counts. -/
theorem slot?_cons (slots : List Slot) (assignment : List (Nat × Nat)) (r i r' : Nat) :
    slot? ⟨slots, (r, i) :: assignment⟩ r' =
      if r = r' then some i else slot? ⟨slots, assignment⟩ r' := by
  simp only [slot?, List.find?_cons]
  by_cases h : r = r'
  · simp [h]
  · rw [beq_eq_false_iff_ne.mpr h, if_neg h]

/-- What a register claims: nothing if it has a slot, else the first that accepts it, and a new one if
none does. -/
theorem claim_cases (h : claim limit ivs f r = some f') :
    (f.slot? r).isSome ∧ f' = f ∨ f.slot? r = none ∧
      ((∃ i, f.slots.findIdx? (·.accepts (intervalOf ivs r)) = some i ∧
        f' = ⟨f.slots.modify i (·.take r (intervalOf ivs r)), (r, i) :: f.assignment⟩) ∨
      f.slots.findIdx? (·.accepts (intervalOf ivs r)) = none ∧ f.slots.length < limit ∧
        f' = ⟨f.slots ++ [Slot.take ⟨[], false⟩ r (intervalOf ivs r)],
          (r, f.slots.length) :: f.assignment⟩) := by
  simp only [claim] at h
  split at h
  · next hs => exact .inl ⟨hs, (Option.some.inj h).symm⟩
  · next hs =>
    refine .inr ⟨by simpa using hs, ?_⟩
    split at h
    · next i hi => exact .inl ⟨i, hi, (Option.some.inj h).symm⟩
    · next hnone =>
      split at h
      · next hlt => exact .inr ⟨hnone, hlt, (Option.some.inj h).symm⟩
      · cases h

/-- A register without a slot gets slot number `i`, which accepts it: one of the slots of the file, or a
new one. -/
structure Gives (ivs : List (Nat × Interval)) (r i : Nat) (slot : Slot) (f f' : SlotFile) : Prop where
  fresh : f.slot? r = none
  accepts : slot.accepts (intervalOf ivs r) = true
  old : f.slots[i]? = some slot ∨ f.slots[i]? = none ∧ slot.owners = []
  taken : f'.slots[i]? = some (slot.take r (intervalOf ivs r))
  others : ∀ {j}, j ≠ i → f'.slots[j]? = f.slots[j]?
  slot?_eq : ∀ a, f'.slot? a = if r = a then some i else f.slot? a

/-- A register that claims a slot has one already, or is given one. -/
theorem gives_of_claim (hc : f.claim limit ivs r = some f') :
    (f.slot? r).isSome ∧ f' = f ∨ ∃ i slot, Gives ivs r i slot f f' := by
  rcases claim_cases hc with h | ⟨hnone, ⟨i, hi, rfl⟩ | ⟨-, -, rfl⟩⟩
  · exact .inl h
  · right
    obtain ⟨hlt, ha, -⟩ := List.findIdx?_eq_some_iff_getElem.mp hi
    have hslot : f.slots[i]? = some f.slots[i] := List.getElem?_eq_getElem hlt
    refine ⟨i, f.slots[i], hnone, ha, .inl hslot, ?_, ?_, slot?_cons _ _ r i⟩
    · rw [List.getElem?_modify_eq, hslot]
      rfl
    · intro j hj
      simp [Ne.symm hj]
  · right
    refine ⟨f.slots.length, ⟨[], false⟩, hnone, rfl, .inr ⟨by simp, rfl⟩, by simp, ?_,
      slot?_cons _ _ r _⟩
    intro j hj
    by_cases hlt : j < f.slots.length
    · rw [List.getElem?_append_left hlt]
    · rw [List.getElem?_eq_none (by simp; omega), List.getElem?_eq_none (by omega)]

/-- The file once those slots are free whose owners have ended by a position. -/
def release (f : SlotFile) (position : Nat) : SlotFile :=
  { f with slots := f.slots.map (Slot.release position) }

/-- At a statement its registers claim their slots, and then slots are released. -/
theorem step_eq_some {s : Statement} : f.step limit ivs s q = some f' ↔
    ∃ f₁, s.registers.foldlM (claim limit ivs) f = some f₁ ∧ f₁.release q = f' := by
  rw [step, Option.bind_eq_bind, Option.bind_eq_some_iff]
  simp only [Option.pure_def, Option.some.injEq]
  rfl

/-! ### Files only grow -/

/-- The later of two files has the slots of the earlier one, and its registers have kept theirs. -/
structure Grows (f f' : SlotFile) : Prop where
  length_le : f.slots.length ≤ f'.slots.length
  kept : ∀ {r i}, f.slot? r = some i → f'.slot? r = some i

private theorem Grows.refl (f : SlotFile) : f.Grows f := ⟨Nat.le_refl _, id⟩

/-- A file that has grown twice has grown. -/
theorem Grows.trans (h : f.Grows f') (h' : f'.Grows last) : f.Grows last :=
  ⟨Nat.le_trans h.length_le h'.length_le, fun hr ↦ h'.kept (h.kept hr)⟩

/-- A register keeps its slot as the file grows. -/
theorem Grows.isSome (h : f.Grows f') (hr : (f.slot? r).isSome) : (f'.slot? r).isSome := by
  obtain ⟨i, hi⟩ := Option.isSome_iff_exists.mp hr
  rw [h.kept hi]
  rfl

/-- A claim makes the file grow. -/
theorem grows_claim (hc : f.claim limit ivs r = some f') : f.Grows f' := by
  constructor
  · rcases claim_cases hc with ⟨-, rfl⟩ | ⟨-, ⟨i, -, rfl⟩ | ⟨-, -, rfl⟩⟩
    · exact Nat.le_refl _
    · exact Nat.le_of_eq (List.length_modify ..).symm
    · exact (List.sublist_append_left ..).length_le
  · intro a i ha
    rcases gives_of_claim hc with ⟨-, rfl⟩ | ⟨j, slot, hg⟩
    · exact ha
    · have hne : r ≠ a := by
        rintro rfl
        rw [hg.fresh] at ha
        cases ha
      rw [hg.slot?_eq, if_neg hne]
      exact ha

private theorem isSome_slot?_claim (hc : f.claim limit ivs r = some f') : (f'.slot? r).isSome := by
  rcases gives_of_claim hc with ⟨hs, rfl⟩ | ⟨i, slot, hg⟩
  · exact hs
  · rw [hg.slot?_eq, if_pos rfl]
    rfl

private theorem grows_release (f : SlotFile) (q : Nat) : f.Grows (f.release q) :=
  ⟨Nat.le_of_eq (List.length_map _).symm, id⟩

private theorem grows_claims {rs : List Nat} (hc : rs.foldlM (claim limit ivs) f = some f') : f.Grows f' := by
  induction rs generalizing f with
  | nil =>
    obtain rfl := Option.some.inj hc
    exact Grows.refl f
  | cons r rest ih =>
    rw [List.foldlM_cons] at hc
    obtain ⟨f₁, hc₁, hc⟩ := Option.bind_eq_some_iff.mp hc
    exact (grows_claim hc₁).trans (ih hc)

private theorem grows_walk (hw : f.walk limit ivs q rest = some f') : f.Grows f' := by
  induction rest generalizing f q with
  | nil =>
    obtain rfl := Option.some.inj hw
    exact Grows.refl f
  | cons s rest ih =>
    obtain ⟨f₂, hs, hw⟩ := Option.bind_eq_some_iff.mp hw
    obtain ⟨f₁, hc, rfl⟩ := step_eq_some.mp hs
    exact (grows_claims hc).trans ((grows_release f₁ q).trans (ih hw))

/-! ### Two walks side by side -/

section Alongside

variable {R : Nat → SlotFile → SlotFile → Prop} {σ : Nat → Nat}

/-- The claims of one statement. -/
private theorem claims_alongside {rs : List Nat}
    (hclaim : ∀ {f f₁ f' : SlotFile} {r : Nat}, R q f f' → r ∈ rs →
      f.claim limit ivs r = some f₁ → f₁.Grows last →
        ∃ f₁', f'.claim limit' ivs' (σ r) = some f₁' ∧ R q f₁ f₁')
    (hR : R q f f') (hc : rs.foldlM (claim limit ivs) f = some f₁) (hlast : f₁.Grows last) :
    (∃ f₁', (rs.map σ).foldlM (claim limit' ivs') f' = some f₁' ∧ R q f₁ f₁') ∧
      ∀ r ∈ rs, (f₁.slot? r).isSome := by
  induction rs generalizing f f' with
  | nil =>
    obtain rfl := Option.some.inj hc
    exact ⟨⟨f', rfl, hR⟩, List.forall_mem_nil _⟩
  | cons r rest ih =>
    rw [List.foldlM_cons] at hc
    obtain ⟨f₂, hc₂, hc⟩ := Option.bind_eq_some_iff.mp hc
    have hgrows := grows_claims hc
    obtain ⟨f₂', hc₂', hR₂⟩ := hclaim hR List.mem_cons_self hc₂ (hgrows.trans hlast)
    obtain ⟨⟨f₁', hc', hR₁⟩, hrest⟩ := ih (fun hR hr ↦ hclaim hR (List.mem_cons_of_mem r hr)) hR₂ hc
    refine ⟨⟨f₁', ?_, hR₁⟩, List.forall_mem_cons.mpr ⟨hgrows.isSome (isSome_slot?_claim hc₂), hrest⟩⟩
    rw [List.map_cons, List.foldlM_cons, hc₂']
    exact hc'

/-- When each claim and each release keeps a relation between two files, and the second file meets
every claim that the first one meets, then the second walk ends when the first one does, in files that
are related. -/
theorem walk_alongside (limit' : Nat) (ivs' : List (Nat × Interval))
    (hclaim : ∀ {q f f₁ f' r}, R q f f' → AccessedAt code r q → f.claim limit ivs r = some f₁ →
      f₁.Grows last → ∃ f₁', f'.claim limit' ivs' (σ r) = some f₁' ∧ R q f₁ f₁')
    (hrelease : ∀ {q f f'}, R q f f' → (∀ r, AccessedAt code r q → (f.slot? r).isSome) →
      R (q + 1) (f.release q) (f'.release q))
    (hd : code.drop q = rest) (hR : R q f f') (hw : f.walk limit ivs q rest = some last) :
    ∃ last', f'.walk limit' ivs' q (rest.map (·.mapRegisters σ)) = some last' ∧
      R (q + rest.length) last last' := by
  induction rest generalizing q f f' with
  | nil =>
    obtain rfl := Option.some.inj hw
    exact ⟨f', rfl, hR⟩
  | cons s rest ih =>
    obtain ⟨f₂, hs, hw⟩ := Option.bind_eq_some_iff.mp hw
    obtain ⟨f₁, hc, rfl⟩ := step_eq_some.mp hs
    have hget : code[q]? = some s := by rw [← List.head?_drop, hd, List.head?_cons]
    have hd' : code.drop (q + 1) = rest := by rw [← List.tail_drop, hd, List.tail_cons]
    obtain ⟨⟨f₁', hc', hR₁⟩, hgiven⟩ := claims_alongside
      (fun hR hr ↦ hclaim hR ⟨s, hget, hr⟩) hR hc ((grows_release f₁ q).trans (grows_walk hw))
    have hall : ∀ r, AccessedAt code r q → (f₁.slot? r).isSome := by
      rintro r ⟨s', hs', hr⟩
      obtain rfl := Option.some.inj (hget.symm.trans hs')
      exact hgiven r hr
    obtain ⟨last', hw', hR'⟩ := ih hd' (hrelease hR₁ hall) hw
    refine ⟨last', ?_, ?_⟩
    · have hstep' : f'.step limit' ivs' (s.mapRegisters σ) q = some (f₁'.release q) := by
        rw [step_eq_some]
        exact ⟨f₁', by rw [Statement.registers_mapRegisters]; exact hc', rfl⟩
      rw [List.map_cons, walk, hstep']
      exact hw'
    · rwa [List.length_cons, show q + (rest.length + 1) = q + 1 + rest.length by omega]

end Alongside

/-- What each claim and each release keeps holds behind a walk over all the code. -/
theorem walk_induction {P : Nat → SlotFile → Prop} (hempty : P 0 {})
    (hclaim : ∀ {q f f₁ r}, P q f → AccessedAt code r q → f.claim limit ivs r = some f₁ → P q f₁)
    (hrelease : ∀ {q f}, P q f → (∀ r, AccessedAt code r q → (f.slot? r).isSome) →
      P (q + 1) (f.release q))
    (hw : walk limit ivs {} 0 code = some last) : P code.length last := by
  -- the walk beside itself
  obtain ⟨last', -, -, h⟩ := walk_alongside (R := fun q f f' ↦ f' = f ∧ P q f) (σ := id) limit ivs
    (fun {q f f₁ f' r} hR hr hc _ ↦ by
      obtain ⟨rfl, hP⟩ := hR
      exact ⟨f₁, hc, rfl, hclaim hP hr hc⟩)
    (fun {q f f'} hR hall ↦ by
      obtain ⟨rfl, hP⟩ := hR
      exact ⟨rfl, hrelease hP hall⟩)
    List.drop_zero ⟨rfl, hempty⟩ hw
  rwa [Nat.zero_add] at h

end SlotFile

end MethodCompiler
