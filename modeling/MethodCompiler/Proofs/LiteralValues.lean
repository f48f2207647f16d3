import MethodCompiler.Lowering.Literal
import MethodCompiler.Proofs.RoundedIntegers

/-!
# What an integer literal stands for

An immediate made of a literal has the type that is asked for and the number that is written, or the
nearest number of a floating-point type, with one exception: an unsigned literal from `2 ^ 63` on is
read as a signed integer before it becomes a floating-point number, so it comes out `2 ^ 64` too low.
-/

namespace MethodCompiler

open Rounding Float.Model

/-! ### Numbers -/

/-- The rational number that a finite number stands for. -/
def floatValue? (x : Float) : Option ℚ := unpackedValue? x.toModel.unpack

/-- The rational number that a finite number of single width stands for. -/
def float32Value? (x : Float32) : Option ℚ := unpackedValue? x.toModel.unpack

/-- The number that a literal writes. -/
def Literal.integer? : Literal → Option ℤ
  | .int n => some n.toInt
  | .uint n => some n.toNat
  | .char c => some c.toNat
  | _ => none

/-- The integers in the range of a numeric type. -/
def Ty.Covers (n : ℤ) : Ty → Prop
  | .i8 => -2 ^ 7 ≤ n ∧ n < 2 ^ 7
  | .u8 => 0 ≤ n ∧ n < 2 ^ 8
  | .i16 => -2 ^ 15 ≤ n ∧ n < 2 ^ 15
  | .u16 => 0 ≤ n ∧ n < 2 ^ 16
  | .i32 => -2 ^ 31 ≤ n ∧ n < 2 ^ 31
  | .u32 => 0 ≤ n ∧ n < 2 ^ 32
  | .i64 => -2 ^ 63 ≤ n ∧ n < 2 ^ 63
  | .u64 => 0 ≤ n ∧ n < 2 ^ 64
  | .f32 => |n| ≤ (2 ^ 24 - 1) * 2 ^ 104
  | .f64 => |n| ≤ (2 ^ 53 - 1) * 2 ^ 971
  | _ => False

/-- The value of a number stands for an integer: it is finite, no other is nearer, and it has its
sign. -/
def StandsFor {α : Type} (value? : α → Option ℚ) (x : α) (n : ℤ) : Prop :=
  ∃ q, value? x = some q ∧ (∀ y r, value? y = some r → |q - n| ≤ |r - n|) ∧
    SignType.sign q = SignType.sign n

/-- The immediate has the type and stands for the integer. -/
def Value.Keeps : Value → Ty → ℤ → Prop
  | .i8 x, .i8, n => x.toInt = n
  | .u8 x, .u8, n => x.toNat = n
  | .i16 x, .i16, n => x.toInt = n
  | .u16 x, .u16, n => x.toNat = n
  | .i32 x, .i32, n => x.toInt = n
  | .u32 x, .u32, n => x.toNat = n
  | .i64 x, .i64, n => x.toInt = n
  | .u64 x, .u64, n => x.toNat = n
  | .f32 x, .f32, n => StandsFor float32Value? x n
  | .f64 x, .f64, n => StandsFor floatValue? x n
  | _, _, _ => False

/-! ### Floating-point numbers -/

/-- The numbers of a type are read by a format, and so are integers and negations that are written
down. -/
structure ReadBy {α : Type} [Neg α] (spec : Format)
    (unpack : α → UnpackedFloat) (magnitude : UInt64 → α) : Prop where
  number : ∀ x, ∃ b, unpack x = UnpackedFloat.unpack spec b
  integer : ∀ u, unpack (magnitude u) =
    UnpackedFloat.unpack spec (UnpackedFloat.pack spec (.ofNat spec u.toNat))
  neg : ∀ x, unpack (-x) = UnpackedFloat.unpack spec (UnpackedFloat.pack spec (unpack x).neg)

private theorem readBy_binary64 :
    ReadBy .binary64 (fun x : Float ↦ x.toModel.unpack) UInt64.toFloat :=
  ⟨fun _ ↦ ⟨_, rfl⟩, fun _ ↦ rfl, fun _ ↦ rfl⟩

private theorem readBy_binary32 :
    ReadBy .binary32 (fun x : Float32 ↦ x.toModel.unpack) UInt64.toFloat32 :=
  ⟨fun _ ↦ ⟨_, rfl⟩, fun _ ↦ rfl, fun _ ↦ rfl⟩

private theorem toNat_toUInt64 (n : Int64) :
    (n.toUInt64.toNat : ℤ) = if n.toInt < 0 then n.toInt + 2 ^ 64 else n.toInt := by
  have hword : n.toInt = (n.toUInt64.toNat : ℤ).bmod (2 ^ 64) := BitVec.toInt_eq_toNat_bmod n.toBitVec
  have hbound := n.toUInt64.toNat_lt
  rw [Int.bmod_def] at hword
  omega

private theorem toInt_toInt64 (u : UInt64) :
    u.toInt64.toInt = if u.toNat < 2 ^ 63 then (u.toNat : ℤ) else u.toNat - 2 ^ 64 := by
  have hword : u.toInt64.toInt = (u.toNat : ℤ).bmod (2 ^ 64) := BitVec.toInt_eq_toNat_bmod u.toBitVec
  have hbound := u.toNat_lt
  rw [Int.bmod_def] at hword
  omega

private theorem toNat_toUInt64_neg {n : Int64} (hnegative : n < 0) :
    ((-n).toUInt64.toNat : ℤ) = -n.toInt := by
  have hbelow : n.toInt < 0 := Int64.lt_iff_toInt_lt.1 hnegative
  have hleast := n.le_toInt
  rw [toNat_toUInt64, Int64.toInt_neg, Int.bmod_def]
  omega

namespace ReadBy

variable {α : Type} [Neg α] {spec : Format} {unpack : α → UnpackedFloat}
  {magnitude : UInt64 → α}

/-- An integer and its negation are read as what is nearest. -/
private theorem exists_nearest (h : ReadBy spec unpack magnitude) (hwide : 8 ≤ spec.exponentBits)
    (u : UInt64) :
    ∃ q, unpackedValue? (unpack (magnitude u)) = some q ∧
      unpackedValue? (unpack (-magnitude u)) = some (-q) ∧ Nearest spec.mantissaBits q (u.toNat : ℤ) := by
  obtain ⟨x, q, hread, hreread, hvalue, hnearest⟩ := exists_nearest_ofNat spec hwide u.toNat_lt
  have hplain : unpack (magnitude u) = x := (h.integer u).trans hread
  have hneg : unpack (-magnitude u) = x.neg := by rw [h.neg, hplain, hreread]
  refine ⟨q, by rw [hplain, hvalue], ?_, hnearest⟩
  rw [hneg, unpackedValue?_neg, hvalue]
  rfl

/-- A signed integer stands for itself. -/
private theorem standsFor (h : ReadBy spec unpack magnitude) (hwide : 8 ≤ spec.exponentBits) (n : Int64) :
    StandsFor (fun x ↦ unpackedValue? (unpack x)) (signedFloat magnitude n) n.toInt := by
  have hsigned : ∃ q, unpackedValue? (unpack (signedFloat magnitude n)) = some q ∧
      Nearest spec.mantissaBits q n.toInt := by
    rw [signedFloat]
    split
    · next hlt =>
      obtain ⟨q, -, hvalue, hnearest⟩ := h.exists_nearest hwide (-n).toUInt64
      refine ⟨-q, hvalue, ?_⟩
      rw [toNat_toUInt64_neg hlt] at hnearest
      simpa using hnearest.neg
    · next hlt =>
      obtain ⟨q, hvalue, -, hnearest⟩ := h.exists_nearest hwide n.toUInt64
      have hnonneg : ¬n.toInt < 0 := fun hbelow ↦ hlt (Int64.lt_iff_toInt_lt.2 hbelow)
      rw [toNat_toUInt64, if_neg hnonneg] at hnearest
      exact ⟨q, hvalue, hnearest⟩
  obtain ⟨q, hvalue, hnearest⟩ := hsigned
  refine ⟨q, hvalue, ?_, hnearest.sign_eq (by rw [mantissaBits_eq]; omega)⟩
  intro y r hother
  obtain ⟨b, hb⟩ := h.number y
  obtain ⟨t, j, hsmall, rfl⟩ := exists_of_unpackedValue? b ((congrArg unpackedValue? hb).symm.trans hother)
  exact hnearest t j hsmall

end ReadBy

/-! ### Literals -/

/-- An integer keeps its value in a type that covers it; every integer is near some floating-point number. -/
private theorem intValue_keeps (n : Int64) (ty : Ty) (span : Span)
    (hcovered : ty.isFloat ∨ ty.Covers n.toInt) :
    ∃ v, intValue n ty span = .ok v ∧ v.Keeps ty n.toInt := by
  have hword := toNat_toUInt64 n
  have hsigned (k : Nat) (hrange : -2 ^ k ≤ n.toInt ∧ n.toInt < 2 ^ k) :
      n.toInt.bmod (2 ^ (k + 1)) = n.toInt := by
    apply Int.bmod_eq_of_le <;> rw [Nat.pow_succ] <;> push_cast <;> omega
  have hunsigned (k : Nat) (hrange : 0 ≤ n.toInt ∧ n.toInt < 2 ^ k) :
      ((n.toUInt64.toNat % 2 ^ k : ℕ) : ℤ) = n.toInt := by
    rw [if_neg (by omega)] at hword
    rw [Nat.mod_eq_of_lt (by zify; omega), hword]
  cases ty with
  | i8 => exact ⟨_, rfl, (Int64.toInt_toInt8 n).trans (hsigned 7 (hcovered.resolve_left (by decide)))⟩
  | i16 => exact ⟨_, rfl, (Int64.toInt_toInt16 n).trans (hsigned 15 (hcovered.resolve_left (by decide)))⟩
  | i32 => exact ⟨_, rfl, (Int64.toInt_toInt32 n).trans (hsigned 31 (hcovered.resolve_left (by decide)))⟩
  | i64 => exact ⟨_, rfl, rfl⟩
  | u8 => exact ⟨_, rfl, hunsigned 8 (hcovered.resolve_left (by decide))⟩
  | u16 => exact ⟨_, rfl, hunsigned 16 (hcovered.resolve_left (by decide))⟩
  | u32 => exact ⟨_, rfl, hunsigned 32 (hcovered.resolve_left (by decide))⟩
  | u64 => exact ⟨_, rfl, hword.trans (if_neg (hcovered.resolve_left (by decide)).1.not_gt)⟩
  | f32 => exact ⟨_, rfl, readBy_binary32.standsFor (by decide) n⟩
  | f64 => exact ⟨_, rfl, readBy_binary64.standsFor (by decide) n⟩
  | _ => simp [Ty.Covers, Ty.isFloat] at hcovered

/-- The number that a literal gives in a type: an unsigned one from `2 ^ 63` on becomes a negative
floating-point number. -/
def Ty.literalNumber (ty : Ty) (n : ℤ) : ℤ :=
  if ty.isFloat ∧ 2 ^ 63 ≤ n then n - 2 ^ 64 else n

private theorem Ty.literalNumber_of_lt {n : ℤ} (ty : Ty) (hsmall : n < 2 ^ 63) : ty.literalNumber n = n :=
  if_neg (by omega)

/-- An unsigned literal of any type but its own goes through a signed integer. -/
private theorem toInt_toInt64_of_covers {u : UInt64} {ty : Ty} (hother : ty ≠ .u64)
    (hcovered : ty.Covers u.toNat) :
    u.toInt64.toInt = ty.literalNumber u.toNat ∧ (ty.isFloat ∨ ty.Covers u.toInt64.toInt) := by
  have hword := toInt_toInt64 u
  by_cases hsmall : u.toNat < 2 ^ 63
  · rw [if_pos hsmall] at hword
    rw [ty.literalNumber_of_lt (by omega), hword]
    exact ⟨rfl, .inr hcovered⟩
  · have hfloat : ty.isFloat := by
      cases ty with
      | f32 | f64 => rfl
      | u64 => exact absurd rfl hother
      | _ => simp only [Ty.Covers] at hcovered <;> omega
    rw [if_neg hsmall] at hword
    rw [Ty.literalNumber, if_pos ⟨hfloat, by omega⟩]
    exact ⟨hword, .inl hfloat⟩

private theorem literalValue_uint {u : UInt64} {ty : Ty} (hother : ty ≠ .u64) (span : Span) :
    literalValue (.uint u) ty span = intValue u.toInt64 ty span := by
  cases ty with
  | u64 => exact absurd rfl hother
  | _ => rfl

private theorem literalValue_char {c : Char} {ty : Ty} {n : ℤ} (hcovered : ty.Covers n) (span : Span) :
    literalValue (.char c) ty span = intValue (.ofNat c.toNat) ty span := by
  cases ty with
  | char | object => exact hcovered.elim
  | _ => rfl

/-- Every integer literal gives an immediate of each type that covers it, and the immediate keeps its
number but for a large unsigned one in a floating-point type. -/
theorem literal_number_kept {lit : Literal} {ty : Ty} {n : ℤ} (span : Span)
    (hwritten : lit.integer? = some n) (hcovered : ty.Covers n) :
    ∃ v, literalValue lit ty span = .ok v ∧ v.Keeps ty (ty.literalNumber n) := by
  cases lit with
  | int n =>
    obtain rfl := Option.some_inj.1 hwritten
    rw [ty.literalNumber_of_lt n.toInt_lt]
    exact intValue_keeps _ _ span (.inr hcovered)
  | char c =>
    obtain rfl := Option.some_inj.1 hwritten
    have hsmall : c.toNat < 2 ^ 63 := c.val.toNat_lt.trans (by decide)
    have hnumber : (Int64.ofNat c.toNat).toInt = c.toNat := Int64.toInt_ofNat_of_lt hsmall
    rw [ty.literalNumber_of_lt (by omega), literalValue_char hcovered, ← hnumber]
    exact intValue_keeps _ _ span (.inr (by rwa [hnumber]))
  | uint u =>
    obtain rfl := Option.some_inj.1 hwritten
    by_cases hown : ty = .u64
    · subst hown
      exact ⟨_, rfl, rfl⟩
    · obtain ⟨hnumber, hrange⟩ := toInt_toInt64_of_covers hown hcovered
      rw [← hnumber, literalValue_uint hown]
      exact intValue_keeps _ _ span hrange
  | _ => cases hwritten

/-- A number with more bits than single width has. -/
theorem odd_literal_kept : (Literal.int (-16777217)).integer? = some (-16777217) ∧
    Ty.f32.Covers (-16777217) ∧ ∃ v, literalValue (.int (-16777217)) .f32 default = .ok v ∧
      v.Keeps .f32 (Ty.f32.literalNumber (-16777217)) := by
  have hcovered : Ty.f32.Covers (-16777217) := by norm_num [Ty.Covers]
  exact ⟨by decide, hcovered, literal_number_kept _ (by decide) hcovered⟩

/-- The largest unsigned literal is in the range of the widest floating-point type and gives no
immediate that keeps it: what it gives is negative. -/
theorem largest_literal_lost : (Literal.uint 18446744073709551615).integer? = some 18446744073709551615 ∧
    Ty.f64.Covers 18446744073709551615 ∧
    ¬∃ v, literalValue (.uint 18446744073709551615) .f64 default = .ok v ∧
      v.Keeps .f64 18446744073709551615 := by
  refine ⟨by decide, ?_, ?_⟩
  · calc |(18446744073709551615 : ℤ)| ≤ 2 ^ 64 := by norm_num
      _ ≤ 2 ^ 971 := pow_le_pow_right₀ (by norm_num) (by norm_num)
      _ ≤ (2 ^ 53 - 1) * 2 ^ 971 := le_mul_of_one_le_left (by positivity) (by norm_num)
  · rintro ⟨v, hgiven, hkept⟩
    obtain ⟨w, hsame, hlost⟩ := intValue_keeps (-1) .f64 default (.inl rfl)
    have hgiven' : literalValue (.uint 18446744073709551615) .f64 default = .ok w := hsame
    obtain rfl : v = w := Except.ok.inj (hgiven.symm.trans hgiven')
    cases v with
    | f64 x =>
      obtain ⟨q, hvalue, -, hpositive⟩ := hkept
      obtain ⟨r, hvalue', -, hnegative⟩ := hlost
      obtain rfl : q = r := Option.some_inj.1 (hvalue.symm.trans hvalue')
      exact absurd (hpositive.symm.trans hnegative) (by decide)
    | _ => exact hkept.elim

end MethodCompiler
