/-!
# Maps over numbers

A map is the list of its entries in ascending order of numbers, so two maps with the same entries
are equal.
-/

namespace MethodCompiler

/-- A finite map from 32-bit numbers. -/
structure SortedMap (α : Type) where
  entries : List (UInt32 × α)
  sorted : entries.Pairwise (·.1 < ·.1)

namespace SortedMap

variable {α : Type}

/-- The map without entries. -/
def empty : SortedMap α := ⟨[], .nil⟩

instance : Inhabited (SortedMap α) := ⟨empty⟩

/-- Enter a value into ascending entries, in place of one with the same number. -/
def insertEntry (n : UInt32) (a : α) : List (UInt32 × α) → List (UInt32 × α)
  | [] => [(n, a)]
  | (i, b) :: rest =>
    if n < i then (n, a) :: (i, b) :: rest
    else if n = i then (n, a) :: rest
    else (i, b) :: insertEntry n a rest

/-- The numbers after an insertion are the new one and those from before. -/
theorem mem_insertEntry {n : UInt32} {a : α} {entries : List (UInt32 × α)} {e : UInt32 × α}
    (h : e ∈ insertEntry n a entries) : e = (n, a) ∨ e ∈ entries := by
  induction entries with
  | nil => simpa [insertEntry] using h
  | cons head rest ih =>
    simp only [insertEntry] at h
    split at h
    · simpa using h
    · split at h
      · rcases List.mem_cons.mp h with h | h
        · exact .inl h
        · exact .inr (List.mem_cons_of_mem _ h)
      · rcases List.mem_cons.mp h with h | h
        · exact .inr (h ▸ List.mem_cons_self)
        · rcases ih h with h | h
          · exact .inl h
          · exact .inr (List.mem_cons_of_mem _ h)

/-- An insertion keeps entries in ascending order. -/
theorem pairwise_insertEntry (n : UInt32) (a : α) {entries : List (UInt32 × α)}
    (h : entries.Pairwise (·.1 < ·.1)) : (insertEntry n a entries).Pairwise (·.1 < ·.1) := by
  induction entries with
  | nil => simp [insertEntry]
  | cons head rest ih =>
    obtain ⟨hhead, hrest⟩ := List.pairwise_cons.mp h
    simp only [insertEntry]
    split
    · next hlt =>
      refine List.pairwise_cons.mpr ⟨fun e he ↦ ?_, h⟩
      rcases List.mem_cons.mp he with he | he
      · exact he ▸ hlt
      · exact UInt32.lt_trans hlt (hhead e he)
    · next hge =>
      split
      · next heq =>
        exact List.pairwise_cons.mpr ⟨fun e he ↦ heq ▸ hhead e he, hrest⟩
      · next hne =>
        refine List.pairwise_cons.mpr ⟨fun e he ↦ ?_, ih hrest⟩
        rcases mem_insertEntry he with he | he
        · rcases UInt32.lt_or_lt_of_ne hne with hlt | hlt
          · exact absurd hlt hge
          · exact he ▸ hlt
        · exact hhead e he

/-- Enter a value under a number, in place of an earlier one. -/
def insert (m : SortedMap α) (n : UInt32) (a : α) : SortedMap α :=
  ⟨insertEntry n a m.entries, pairwise_insertEntry n a m.sorted⟩

/-- The value under a number. -/
def get? (m : SortedMap α) (n : UInt32) : Option α := (m.entries.find? (·.1 == n)).map (·.2)

/-- An insertion puts its value under its number, whatever stood there. -/
theorem find?_insertEntry_self (n : UInt32) (a : α) (entries : List (UInt32 × α)) :
    (insertEntry n a entries).find? (·.1 == n) = some (n, a) := by
  induction entries with
  | nil => simp [insertEntry]
  | cons head rest ih =>
    simp only [insertEntry]
    split
    · simp
    · split
      · simp
      · next hne => simp [Ne.symm hne, ih]

/-- An insertion leaves all other numbers as they are. -/
theorem find?_insertEntry_of_ne {n i : UInt32} (h : n ≠ i) (a : α) (entries : List (UInt32 × α)) :
    (insertEntry n a entries).find? (·.1 == i) = entries.find? (·.1 == i) := by
  induction entries with
  | nil => simp [insertEntry, h]
  | cons head rest ih =>
    simp only [insertEntry]
    split
    · simp [h]
    · split
      · next heq => simp [h, ← heq]
      · simp [List.find?_cons, ih]

/-- What is entered under a number is found under it. -/
@[simp] theorem get?_insert_self (m : SortedMap α) (n : UInt32) (a : α) :
    (m.insert n a).get? n = some a := by
  simp [get?, insert, find?_insertEntry_self]

/-- An insertion changes nothing under other numbers. -/
theorem get?_insert_of_ne (m : SortedMap α) {n i : UInt32} (h : n ≠ i) (a : α) :
    (m.insert n a).get? i = m.get? i := by
  simp [get?, insert, find?_insertEntry_of_ne h]

/-- The map has a value under a number. -/
def contains (m : SortedMap α) (n : UInt32) : Bool := m.entries.any (·.1 == n)

/-- Enter values one after the other; the last one under a number stays. -/
def ofList (entries : List (UInt32 × α)) : SortedMap α :=
  entries.foldl (fun m (n, a) ↦ m.insert n a) empty

private theorem insertEntry_of_lt {n : UInt32} {entries : List (UInt32 × α)} (h : ∀ e ∈ entries, e.1 < n)
    (a : α) : insertEntry n a entries = entries ++ [(n, a)] := by
  induction entries with
  | nil => rfl
  | cons e rest ih =>
    obtain ⟨he, hrest⟩ := List.forall_mem_cons.mp h
    have hne : n ≠ e.1 := (UInt32.ne_of_lt he).symm
    rw [insertEntry, if_neg (UInt32.lt_asymm he), if_neg hne, ih hrest]
    rfl

/-- Ascending entries that are entered behind those of a map stand there as they are. -/
theorem entries_foldl_insert (entries : List (UInt32 × α)) (m : SortedMap α)
    (h : (m.entries ++ entries).Pairwise (·.1 < ·.1)) :
    (entries.foldl (fun m (n, a) ↦ m.insert n a) m).entries = m.entries ++ entries := by
  induction entries generalizing m with
  | nil => exact (List.append_nil _).symm
  | cons e rest ih =>
    obtain ⟨-, -, hbetween⟩ := List.pairwise_append.mp h
    have hinsert : (m.insert e.1 e.2).entries = m.entries ++ [e] :=
      insertEntry_of_lt (fun e' he' ↦ hbetween e' he' e List.mem_cons_self) e.2
    have hall : (m.insert e.1 e.2).entries ++ rest = m.entries ++ e :: rest := by
      rw [hinsert, List.append_assoc, List.singleton_append]
    rw [List.foldl_cons, ih _ (by rwa [hall]), hall]

/-- A map is made up of its entries. -/
theorem ofList_entries (m : SortedMap α) : ofList m.entries = m := by
  have h : (ofList m.entries).entries = m.entries := entries_foldl_insert m.entries empty m.sorted
  have hext (m' : SortedMap α) (h : m'.entries = m.entries) : m' = m := by
    cases m'
    cases h
    rfl
  exact hext _ h

end SortedMap

end MethodCompiler
