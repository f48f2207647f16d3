import MethodCompiler.Flow.Block

/-!
# Blocks tile the code

The blocks of some code follow each other without gaps from its first position to its last, so every
position lies in exactly one of them. A label is always the first statement of its block.
-/

namespace MethodCompiler.Block

/-- A block holds the positions from its start to its last one. -/
theorem contains_iff {b : Block} {i : Nat} : b.contains i = true ↔ b.start ≤ i ∧ i ≤ b.last := by
  simp [contains]

/-- Blocks that follow each other without gaps from position `lo` up to position `hi`. -/
def Tiles : Nat → List Block → Nat → Prop
  | lo, [], hi => lo = hi
  | lo, b :: rest, hi => b.start = lo ∧ b.start ≤ b.last ∧ Tiles (b.last + 1) rest hi

private theorem tiles_cons {lo hi start last : Nat} {rest : List Block} :
    Tiles lo (⟨start, last⟩ :: rest) hi ↔
      start = lo ∧ start ≤ last ∧ Tiles (last + 1) rest hi :=
  Iff.rfl

namespace Tiles

variable {lo hi p id : Nat} {bs : List Block} {b b' : Block}

/-- A tiled range does not end before it starts. -/
theorem le (h : Tiles lo bs hi) : lo ≤ hi := by
  induction bs generalizing lo with
  | nil => exact Nat.le_of_eq h
  | cons b rest ih =>
    obtain ⟨rfl, hb, hr⟩ := h
    have := ih hr
    omega

/-- Every block lies inside the tiled range. -/
theorem bounds (h : Tiles lo bs hi) (hb : bs[id]? = some b) :
    lo ≤ b.start ∧ b.start ≤ b.last ∧ b.last < hi := by
  induction bs generalizing lo id with
  | nil => simp at hb
  | cons c rest ih =>
    obtain ⟨rfl, hc, hr⟩ := h
    cases id with
    | zero =>
      obtain rfl : c = b := by simpa using hb
      have := hr.le
      omega
    | succ id =>
      have := ih hr (by simpa using hb)
      omega

/-- The first block starts where the tiled range starts. -/
private theorem exists_start (h : Tiles lo bs hi) (hlt : lo < hi) : ∃ b ∈ bs, b.start = lo := by
  cases bs with
  | nil => exact absurd h (Nat.ne_of_lt hlt)
  | cons b rest => exact ⟨b, List.mem_cons_self, h.1⟩

/-- A block starts right after the one before it. -/
theorem start_succ (h : Tiles lo bs hi) (hb : bs[id]? = some b) (hb' : bs[id + 1]? = some b') :
    b'.start = b.last + 1 := by
  induction bs generalizing lo id with
  | nil => simp at hb
  | cons c rest ih =>
    obtain ⟨-, -, hr⟩ := h
    cases id with
    | zero =>
      obtain rfl : c = b := by simpa using hb
      cases rest with
      | nil => simp at hb'
      | cons d rest =>
        obtain rfl : d = b' := by simpa using hb'
        exact hr.1
    | succ id => exact ih hr (by simpa using hb) (by simpa using hb')

/-- The block of a position is the one that holds it. -/
theorem indexOf_eq (h : Tiles lo bs hi) (hb : bs[id]? = some b) (hp : b.contains p = true) :
    indexOf bs p = id := by
  induction bs generalizing lo id with
  | nil => simp at hb
  | cons c rest ih =>
    obtain ⟨-, -, hr⟩ := h
    simp only [indexOf, List.findIdx_cons] at ih ⊢
    cases id with
    | zero =>
      obtain rfl : c = b := by simpa using hb
      simp [hp]
    | succ id =>
      have hb : rest[id]? = some b := by simpa using hb
      have hlt := hr.bounds hb
      have hc : c.contains p = false := by
        rw [contains_iff] at hp
        rw [Bool.eq_false_iff, ne_eq, contains_iff]
        omega
      rw [hc, cond_false, ih hr hb]

/-- No two blocks hold the same position. -/
theorem unique {id' : Nat} (h : Tiles lo bs hi) (hb : bs[id]? = some b) (hb' : bs[id']? = some b')
    (hp : b.start ≤ p ∧ p ≤ b.last) (hp' : b'.start ≤ p ∧ p ≤ b'.last) : id = id' ∧ b = b' := by
  have he : id = id' := by
    rw [← h.indexOf_eq hb (contains_iff.mpr hp), ← h.indexOf_eq hb' (contains_iff.mpr hp')]
  subst he
  exact ⟨rfl, Option.some.inj (hb.symm.trans hb')⟩

/-- Every position of the tiled range lies in a block. -/
theorem exists_contains (h : Tiles lo bs hi) (hlo : lo ≤ p) (hhi : p < hi) :
    ∃ (id : Nat) (b : Block), bs[id]? = some b ∧ b.contains p = true := by
  induction bs generalizing lo with
  | nil => exact absurd h (by simp only [Tiles]; omega)
  | cons c rest ih =>
    obtain ⟨rfl, hc, hr⟩ := h
    by_cases hp : p ≤ c.last
    · exact ⟨0, c, rfl, contains_iff.mpr ⟨hlo, hp⟩⟩
    · obtain ⟨id, b, hb, hm⟩ := ih hr (by omega)
      exact ⟨id + 1, b, by simpa using hb, hm⟩

end Tiles

private theorem tiles_splitFrom {start position : Nat} (h : start ≤ position) (code : List Statement) :
    Tiles start (splitFrom start position code) (position + code.length) := by
  induction code generalizing start position with
  | nil =>
    simp only [splitFrom]
    split
    · exact tiles_cons.mpr ⟨rfl, by omega, by simp only [Tiles, List.length_nil]; omega⟩
    · simp only [Tiles, List.length_nil]
      omega
  | cons s rest ih =>
    have he : position + (s :: rest).length = position + 1 + rest.length := by
      simp only [List.length_cons]
      omega
    rw [he]
    simp only [splitFrom]
    by_cases hl : (s.isLabel && decide (start < position)) = true
    · have hlt : start < position := by simpa using (Bool.and_eq_true_iff.mp hl).2
      simp only [hl, if_true]
      split
      · refine tiles_cons.mpr ⟨rfl, by omega, tiles_cons.mpr ⟨by omega, Nat.le_refl _, ?_⟩⟩
        exact ih (Nat.le_refl _)
      · refine tiles_cons.mpr ⟨rfl, by omega, ?_⟩
        rw [show position - 1 + 1 = position by omega]
        exact ih (Nat.le_succ _)
    · simp only [hl]
      split
      · exact tiles_cons.mpr ⟨rfl, h, ih (Nat.le_refl _)⟩
      · exact ih (Nat.le_succ_of_le h)

/-- The blocks of some code tile all its positions. -/
theorem tiles_split (code : List Statement) : Tiles 0 (split code) code.length := by
  simpa [split] using tiles_splitFrom (Nat.le_refl 0) code

private theorem exists_start_splitFrom {start position i : Nat} {code : List Statement}
    {s : Statement} (h : start ≤ position) (hs : code[i]? = some s) (hl : s.isLabel = true) :
    ∃ b ∈ splitFrom start position code, b.start = position + i := by
  induction code generalizing start position i with
  | nil => simp at hs
  | cons t rest ih =>
    cases i with
    | zero =>
      obtain rfl : t = s := by simpa using hs
      -- Whatever was open is closed before the label, so the rest is tiled from the label on.
      have ht := tiles_splitFrom (Nat.le_succ position) rest
      obtain ⟨b, hb, hst⟩ := ht.exists_start (by omega)
      simp only [splitFrom, hl, Bool.true_and]
      by_cases hlt : start < position
      · simp only [hlt, decide_true, if_true]
        split
        · exact ⟨⟨position, position⟩, by simp, by simp⟩
        · exact ⟨b, by simp [hb], by simp [hst]⟩
      · have he : start = position := by omega
        subst he
        simp only [Nat.lt_irrefl, decide_false, Bool.false_eq_true, if_false, List.nil_append]
        split
        · exact ⟨⟨start, start⟩, by simp, by simp⟩
        · exact ⟨b, hb, by simp [hst]⟩
    | succ i =>
      have hs : rest[i]? = some s := by simpa using hs
      simp only [splitFrom]
      split
      · obtain ⟨b, hb, hst⟩ := ih (Nat.le_refl (position + 1)) hs
        exact ⟨b, by simp [hb], by omega⟩
      · have hle : (if (t.isLabel && decide (start < position)) = true then position else start) ≤
            position + 1 := by
          split <;> omega
        obtain ⟨b, hb, hst⟩ := ih hle hs
        exact ⟨b, List.mem_append_right _ hb, by omega⟩

private theorem exists_last_splitFrom (start position : Nat) {i : Nat} {code : List Statement}
    {s : Statement} (hs : code[i]? = some s) (hl : s.op.exitsBlock = true) :
    ∃ b ∈ splitFrom start position code, b.last = position + i := by
  induction code generalizing start position i with
  | nil => simp at hs
  | cons t rest ih =>
    rw [splitFrom]
    cases i with
    | zero =>
      obtain rfl : t = s := by simpa using hs
      rw [if_pos hl]
      exact ⟨_, List.mem_append_right _ List.mem_cons_self, rfl⟩
    | succ i =>
      have hs : rest[i]? = some s := by simpa using hs
      split
      · obtain ⟨b, hb, hlast⟩ := ih (position + 1) (position + 1) hs
        exact ⟨b, List.mem_append_right _ (List.mem_cons_of_mem _ hb), by omega⟩
      · obtain ⟨b, hb, hlast⟩ := ih _ (position + 1) hs
        exact ⟨b, List.mem_append_right _ hb, by omega⟩

/-- A label is the first statement of its block. -/
theorem start_of_isLabel {code : List Statement} {t : Nat} {s : Statement}
    (hs : code[t]? = some s) (hl : s.isLabel = true) :
    ∃ b, (split code)[indexOf (split code) t]? = some b ∧ b.start = t := by
  obtain ⟨b, hb, hst⟩ := exists_start_splitFrom (Nat.le_refl 0) hs hl
  rw [Nat.zero_add] at hst
  obtain ⟨id, hid⟩ := List.mem_iff_getElem?.mp hb
  have hid : (split code)[id]? = some b := hid
  have hbounds := (tiles_split code).bounds hid
  have hc : b.contains t = true := contains_iff.mpr ⟨by omega, by omega⟩
  rw [(tiles_split code).indexOf_eq hid hc]
  exact ⟨b, hid, hst⟩

/-- Inside a block, after its first statement, there is no label, and before its last no statement
that ends a block. -/
theorem inside_split {code : List Statement} {id q : Nat} {b : Block} {s : Statement}
    (hb : (split code)[id]? = some b) (hs : code[q]? = some s) :
    (b.start < q → q ≤ b.last → s.isLabel = false) ∧
      (b.start ≤ q → q < b.last → s.op.exitsBlock = false) := by
  have ht := tiles_split code
  constructor
  · intro hlo hhi
    refine Bool.eq_false_iff.mpr fun hl ↦ ?_
    obtain ⟨b', hb', hst⟩ := start_of_isLabel hs hl
    have hbounds := ht.bounds hb'
    obtain ⟨-, rfl⟩ := ht.unique hb hb' (p := q) (by omega) (by omega)
    omega
  · intro hlo hhi
    refine Bool.eq_false_iff.mpr fun hl ↦ ?_
    obtain ⟨b', hb', hlast⟩ := exists_last_splitFrom 0 0 hs hl
    obtain ⟨id', hid'⟩ := List.mem_iff_getElem?.mp hb'
    have hid' : (split code)[id']? = some b' := hid'
    have hbounds := ht.bounds hid'
    obtain ⟨-, rfl⟩ := ht.unique hb hid' (p := q) (by omega) (by omega)
    omega

end MethodCompiler.Block
