import Mathlib
import MethodCompiler.Code.Value

/-!
# The signs of zeros

Equality of values takes the two zeros of a floating-point type for one. Values that are equal differ in
nothing else. When two floating-point numbers are equal is stated by `Float.beq_iff_ne_nan_and_eq`, which
no part of Mathlib brings but all of it.
-/

namespace MethodCompiler.Value

mutual

/-- The value with a positive zero in the place of each floating-point zero, at any depth. -/
def plainZeros : Value → Value
  | f32 x => f32 (if x == 0 then 0 else x)
  | f64 x => f64 (if x == 0 then 0 else x)
  | array elem items => array elem (itemsPlain items)
  | table key value entries => table key value (entriesPlain entries)
  | v => v

def itemsPlain : List Value → List Value
  | [] => []
  | v :: rest => v.plainZeros :: itemsPlain rest

def entriesPlain : List (Value × Value) → List (Value × Value)
  | [] => []
  | (k, v) :: rest => (k.plainZeros, v.plainZeros) :: entriesPlain rest

end

mutual

/-- The value is a floating-point zero or holds one at some depth. -/
def hasZero : Value → Bool
  | f32 x => x == 0
  | f64 x => x == 0
  | array _ items => anyItemHasZero items
  | table _ _ entries => anyEntryHasZero entries
  | _ => false

def anyItemHasZero : List Value → Bool
  | [] => false
  | v :: rest => v.hasZero || anyItemHasZero rest

def anyEntryHasZero : List (Value × Value) → Bool
  | [] => false
  | (k, v) :: rest => k.hasZero || v.hasZero || anyEntryHasZero rest

end

/-! ### Numbers -/

/-- Numbers that are equal, or the two zeros, have the same form without a sign on zero. -/
private theorem plainZero_eq {α : Type} [BEq α] {zero negZero x y : α} (hzero : (zero == zero) = true)
    (hneg : (negZero == zero) = true)
    (h : x = y ∨ x = zero ∧ y = negZero ∨ x = negZero ∧ y = zero) :
    (if x == zero then zero else x) = if y == zero then zero else y := by
  obtain rfl | ⟨rfl, rfl⟩ | ⟨rfl, rfl⟩ := h
  · rfl
  · rw [if_pos hzero, if_pos hneg]
  · rw [if_pos hneg, if_pos hzero]

/-! ### Values -/

mutual

/-- Equal values differ at most in the signs of zeros. -/
theorem plainZeros_eq_of_same {a b : Value} (h : a.same b = true) : a.plainZeros = b.plainZeros := by
  cases a with
  | f32 x =>
    cases b with
    | f32 y => exact congrArg f32 (plainZero_eq rfl rfl (Float32.beq_iff_ne_nan_and_eq.mp h).2.2)
    | _ => cases h
  | f64 x =>
    cases b with
    | f64 y => exact congrArg f64 (plainZero_eq rfl rfl (Float.beq_iff_ne_nan_and_eq.mp h).2.2)
    | _ => cases h
  | array e xs =>
    cases b with
    | array e' ys =>
      rw [same, Bool.and_eq_true, beq_iff_eq] at h
      rw [plainZeros, plainZeros, h.1, itemsPlain_eq_of_same h.2]
    | _ => cases h
  | table k v xs =>
    cases b with
    | table k' v' ys =>
      rw [same, Bool.and_eq_true, Bool.and_eq_true, beq_iff_eq, beq_iff_eq] at h
      rw [plainZeros, plainZeros, h.1.1, h.1.2, entriesPlain_eq_of_same h.2]
    | _ => cases h
  | null => cases b <;> first | rfl | cases h
  | _ =>
    cases b <;> first
      | cases h
      | (rw [same, beq_iff_eq] at h; rw [h])

private theorem itemsPlain_eq_of_same {xs ys : List Value} (h : sameItems xs ys = true) :
    itemsPlain xs = itemsPlain ys := by
  cases xs with
  | nil =>
    cases ys with
    | nil => rfl
    | cons y ys => cases h
  | cons x xs =>
    cases ys with
    | nil => cases h
    | cons y ys =>
      rw [sameItems, Bool.and_eq_true] at h
      rw [itemsPlain, itemsPlain, plainZeros_eq_of_same h.1, itemsPlain_eq_of_same h.2]

private theorem entriesPlain_eq_of_same {xs ys : List (Value × Value)} (h : sameEntries xs ys = true) :
    entriesPlain xs = entriesPlain ys := by
  cases xs with
  | nil =>
    cases ys with
    | nil => rfl
    | cons y ys => cases h
  | cons x xs =>
    cases ys with
    | nil => cases h
    | cons y ys =>
      obtain ⟨k, v⟩ := x
      obtain ⟨k', v'⟩ := y
      rw [sameEntries, Bool.and_eq_true, Bool.and_eq_true] at h
      rw [entriesPlain, entriesPlain, plainZeros_eq_of_same h.1.1, plainZeros_eq_of_same h.1.2,
        entriesPlain_eq_of_same h.2]

end

mutual

private theorem hasZero_plainZeros (v : Value) : v.plainZeros.hasZero = v.hasZero := by
  cases v with
  | f32 x | f64 x =>
    rw [plainZeros, hasZero, hasZero]
    split
    · next h => exact h.symm
    · rfl
  | array e xs => exact anyItemHasZero_itemsPlain xs
  | table k v xs => exact anyEntryHasZero_entriesPlain xs
  | _ => rfl

private theorem anyItemHasZero_itemsPlain (xs : List Value) :
    anyItemHasZero (itemsPlain xs) = anyItemHasZero xs := by
  cases xs with
  | nil => rfl
  | cons x xs =>
    rw [itemsPlain, anyItemHasZero, anyItemHasZero, hasZero_plainZeros x, anyItemHasZero_itemsPlain xs]

private theorem anyEntryHasZero_entriesPlain (xs : List (Value × Value)) :
    anyEntryHasZero (entriesPlain xs) = anyEntryHasZero xs := by
  cases xs with
  | nil => rfl
  | cons x xs =>
    obtain ⟨k, v⟩ := x
    rw [entriesPlain, anyEntryHasZero, anyEntryHasZero, hasZero_plainZeros k, hasZero_plainZeros v,
      anyEntryHasZero_entriesPlain xs]

end

mutual

private theorem plainZeros_of_hasZero {v : Value} (h : v.hasZero = false) : v.plainZeros = v := by
  cases v with
  | f32 x => exact congrArg f32 (if_neg (Bool.eq_false_iff.mp h))
  | f64 x => exact congrArg f64 (if_neg (Bool.eq_false_iff.mp h))
  | array e xs => exact congrArg (array e) (itemsPlain_of_hasZero h)
  | table k v xs => exact congrArg (table k v) (entriesPlain_of_hasZero h)
  | _ => rfl

private theorem itemsPlain_of_hasZero {xs : List Value} (h : anyItemHasZero xs = false) :
    itemsPlain xs = xs := by
  cases xs with
  | nil => rfl
  | cons x xs =>
    rw [anyItemHasZero, Bool.or_eq_false_iff] at h
    rw [itemsPlain, plainZeros_of_hasZero h.1, itemsPlain_of_hasZero h.2]

private theorem entriesPlain_of_hasZero {xs : List (Value × Value)} (h : anyEntryHasZero xs = false) :
    entriesPlain xs = xs := by
  cases xs with
  | nil => rfl
  | cons x xs =>
    obtain ⟨k, v⟩ := x
    rw [anyEntryHasZero, Bool.or_eq_false_iff, Bool.or_eq_false_iff] at h
    rw [entriesPlain, plainZeros_of_hasZero h.1.1, plainZeros_of_hasZero h.1.2,
      entriesPlain_of_hasZero h.2]

end

/-- A value without zeros is all that its form without signs stands for. -/
theorem eq_of_plainZeros_eq {v w : Value} (hzero : v.hasZero = false) (h : w.plainZeros = v.plainZeros) :
    w = v := by
  have hw : w.hasZero = false := by rw [← hasZero_plainZeros w, h, hasZero_plainZeros v, hzero]
  rw [← plainZeros_of_hasZero hw, h, plainZeros_of_hasZero hzero]

end MethodCompiler.Value
