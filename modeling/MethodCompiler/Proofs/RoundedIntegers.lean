import Mathlib.Algebra.Order.Field.Power
import Mathlib.Algebra.Order.Ring.Abs
import Mathlib.Data.Int.ConditionallyCompleteOrder
import Mathlib.Data.Rat.Cast.Order
import Mathlib.Data.Sign.Defs
import Mathlib.Tactic.GCongr
import Mathlib.Tactic.Linarith
import Mathlib.Tactic.NormNum
import Mathlib.Tactic.Positivity
import Mathlib.Tactic.Ring

/-!
# Integers as floating-point numbers

An integer of up to 64 bits is rounded to a finite number of the format, and no finite number of the
format is nearer to it. A format keeps the leading bits of the integer; the bits it drops are
remembered as one bit and as whether anything is left below it, which is enough to round to the nearer
multiple. All is stated for formats with at least eight exponent bits, so that no integer of 64 bits is
too large for them.
-/

namespace MethodCompiler.Rounding

open Float.Model Float.Model.UnpackedFloat

variable {spec : Format} {s : Sign} {m k n : Nat} {e : Int}

/-- The rational number that a finite floating-point number stands for. -/
def unpackedValue? : UnpackedFloat → Option ℚ
  | .finite s m e _ => some ((s.apply m : ℤ) * 2 ^ e)
  | .zero _ => some 0
  | _ => none

private theorem apply_neg (s : Sign) (n : ℤ) : (-s).apply n = -s.apply n := by
  cases s with
  | negative => exact (Int.neg_neg n).symm
  | positive => rfl

/-- The negation of a number has the opposite value. -/
theorem unpackedValue?_neg (x : UnpackedFloat) : unpackedValue? x.neg = (unpackedValue? x).map (- ·) := by
  cases x with
  | finite s m e =>
    show some (((-s).apply m : ℤ) * 2 ^ e : ℚ) = some (-(((s.apply m : ℤ) : ℚ) * 2 ^ e))
    rw [apply_neg, Int.cast_neg, neg_mul]
  | zero => exact congrArg some neg_zero.symm
  | _ => rfl

/-! ### The bits that are dropped -/

/-- A number shifted to the right keeps its quotient, and two bits say where its remainder stands
between two multiples. -/
private theorem shiftRight_exact (m k : Nat) : (⟨m, false, false⟩ : ExtendedMantissa) >>> k =
    ⟨m / 2 ^ k, decide (2 ^ k ≤ 2 * (m % 2 ^ k)), decide (2 * (m % 2 ^ k) % 2 ^ k ≠ 0)⟩ := by
  show Nat.repeat ExtendedMantissa.shiftRightOne k ⟨m, false, false⟩ = _
  induction k with
  | zero => simp [Nat.repeat, Nat.mod_one]
  | succ k ih =>
    have hsplit : m % 2 ^ (k + 1) = m % 2 ^ k + 2 ^ k * (m / 2 ^ k % 2) := by rw [Nat.pow_succ, Nat.mod_mul]
    have hsmall : m % 2 ^ k < 2 ^ k := Nat.mod_lt _ (Nat.two_pow_pos k)
    have htwice : 2 * (m % 2 ^ (k + 1)) % 2 ^ (k + 1) = 2 * (m % 2 ^ k) := by
      rw [hsplit, Nat.pow_succ', Nat.mul_mod_mul_left, Nat.add_mul_mod_self_left, Nat.mod_mod]
    rw [Nat.repeat, ih, ExtendedMantissa.shiftRightOne, htwice, ExtendedMantissa.mk.injEq]
    refine ⟨?_, ?_, ?_⟩
    · rw [Nat.div_div_eq_div_mul, Nat.pow_succ]
    · -- the last bit of the quotient decides in which half of the next multiple the number lies
      rw [hsplit, Nat.pow_succ', Bool.eq_iff_iff]
      rcases Nat.mod_two_eq_zero_or_one (m / 2 ^ k) with hbit | hbit
      · simp [hbit]; omega
      · simp [hbit]
    · rw [Bool.eq_iff_iff]
      by_cases hlow : 2 ^ k ≤ 2 * (m % 2 ^ k)
      · have hpositive := Nat.two_pow_pos k
        simp [hlow]; omega
      · have hexact : 2 * (m % 2 ^ k) % 2 ^ k = 2 * (m % 2 ^ k) := Nat.mod_eq_of_lt (by omega)
        simp [hlow, hexact]

/-- A number divided by a power of two and rounded. -/
def roundedQuotient (m k : Nat) : Nat :=
  ((⟨m, false, false⟩ : ExtendedMantissa) >>> k).roundedMantissa

/-- Rounding takes the quotient or the next number, and is off by at most a half. -/
private theorem roundedQuotient_eq (m k : Nat) : ∃ c ≤ 1, roundedQuotient m k = m / 2 ^ k + c ∧
    2 * |((c * 2 ^ k : ℕ) : ℤ) - (m % 2 ^ k : ℕ)| ≤ (2 ^ k : ℕ) := by
  have hsmall : m % 2 ^ k < 2 ^ k := Nat.mod_lt m (Nat.two_pow_pos k)
  rw [roundedQuotient, shiftRight_exact, ExtendedMantissa.roundedMantissa]
  generalize m / 2 ^ k = q
  generalize m % 2 ^ k = r at hsmall
  generalize 2 ^ k = unit at hsmall
  by_cases hhalf : unit ≤ 2 * r
  · have hrest : 2 * r % unit = 2 * r - unit := by
      rw [Nat.mod_eq_sub_mod hhalf, Nat.mod_eq_of_lt (by omega)]
    by_cases htie : 2 * r = unit
    · refine ⟨q % 2, by omega, by simp [htie, ExtendedMantissa.accuracy, Accuracy.roundToNearestEven], ?_⟩
      rcases Nat.mod_two_eq_zero_or_one q with heven | hodd
      · simp [heven]; omega
      · rw [hodd, abs_of_nonneg (by omega)]; omega
    · refine ⟨1, le_rfl, ?_, ?_⟩
      · simp [hhalf, hrest, show ¬2 * r - unit = 0 by omega, ExtendedMantissa.accuracy,
          Accuracy.roundToNearestEven]
      · rw [abs_of_nonneg (by omega)]; omega
  · refine ⟨0, Nat.zero_le _, ?_, ?_⟩
    · by_cases hlevel : 2 * r % unit = 0 <;>
        simp [hhalf, hlevel, ExtendedMantissa.accuracy, Accuracy.roundToNearestEven]
    · simp; omega

private theorem roundedQuotient_zero (m : Nat) : roundedQuotient m 0 = m := by
  rw [roundedQuotient, shiftRight_exact]
  simp [ExtendedMantissa.roundedMantissa, ExtendedMantissa.accuracy, Accuracy.roundToNearestEven, Nat.mod_one]

/-- No multiple is nearer than the one that rounding takes. -/
private theorem abs_roundedQuotient_sub_le (m k : Nat) (t : ℤ) :
    |(roundedQuotient m k * 2 ^ k : ℤ) - m| ≤ |t * 2 ^ k - m| := by
  obtain ⟨c, hbit, hrounded, hhalf⟩ := roundedQuotient_eq m k
  have hparts : (m : ℤ) = 2 ^ k * (m / 2 ^ k : ℕ) + (m % 2 ^ k : ℕ) := by
    exact_mod_cast (Nat.div_add_mod m _).symm
  have hoff : 2 * |(roundedQuotient m k * 2 ^ k : ℤ) - m| ≤ 2 ^ k := by
    rw [hrounded, hparts]
    push_cast at hhalf ⊢
    rwa [show ((m : ℤ) / 2 ^ k + c) * 2 ^ k - (2 ^ k * (m / 2 ^ k) + m % 2 ^ k) =
      c * 2 ^ k - m % 2 ^ k by ring]
  by_cases hsame : t = roundedQuotient m k
  · rw [hsame]
  · have hapart : (2 : ℤ) ^ k ≤ |(t - roundedQuotient m k) * 2 ^ k| := by
      rw [abs_mul, abs_of_pos (show (0 : ℤ) < 2 ^ k by positivity)]
      exact le_mul_of_one_le_left (by positivity) (Int.one_le_abs (sub_ne_zero.2 hsame))
    have htriangle := abs_sub_abs_le_abs_sub ((t - roundedQuotient m k) * 2 ^ k)
      (m - roundedQuotient m k * 2 ^ k)
    rw [show (t - roundedQuotient m k) * 2 ^ k - (m - roundedQuotient m k * 2 ^ k) =
      t * 2 ^ k - (m : ℤ) by ring, abs_sub_comm (m : ℤ)] at htriangle
    linarith

/-! ### Rounding to the format -/

/-- The bits beyond the format's are what a number is shifted by. -/
private theorem shiftToTargetExponent_exact (hbits : m.log2 + 1 = spec.mantissaBits + k)
    (hlow : spec.minExponent ≤ e) :
    shiftToTargetExponent spec m e .exact = ((⟨m, false, false⟩ : ExtendedMantissa) >>> k, e + k) := by
  have htarget : spec.targetExponent (totalExponent m e) = e + k := by
    simp only [Format.targetExponent, totalExponent]
    omega
  show shiftToExponent m e .exact (spec.targetExponent (totalExponent m e)) = _
  rw [htarget, shiftToExponent, add_sub_cancel_left, Int.toNat_natCast]
  rfl

/-- The mantissa and exponent of a number in the format's range, with the format's leading bit. -/
structure Normal (spec : Format) (m : Nat) (e : Int) : Prop where
  leading : 2 ^ spec.mantissaBitsWithoutImplicit ≤ m
  fits : m < 2 ^ spec.mantissaBits
  low : spec.minExponent ≤ e
  high : (e + spec.exponentBias + spec.mantissaBitsWithoutImplicit).toNat + 1 < 2 ^ spec.exponentBits

/-- One bit of a mantissa is not written down. -/
theorem mantissaBits_eq (spec : Format) : spec.mantissaBits = spec.mantissaBitsWithoutImplicit + 1 :=
  Nat.add_comm ..

private theorem toNat_one_append {w : Nat} (v : BitVec w) : (1#1 ++ v).toNat = 2 ^ w + v.toNat := by
  rw [BitVec.toNat_append, ← Nat.shiftLeft_add_eq_or_of_lt v.isLt]
  simp [Nat.shiftLeft_eq]

private theorem exponent_pos (hlow : spec.minExponent ≤ e) :
    0 < e + spec.exponentBias + spec.mantissaBitsWithoutImplicit := by
  have hone : (1 : ℤ) ≤ 2 ^ (spec.exponentBits - 1) := one_le_pow₀ (by norm_num)
  have hbias : (spec.exponentBias : ℤ) = 2 ^ (spec.exponentBits - 1) - 1 := by
    rw [Format.exponentBias]
    push_cast [Nat.one_le_two_pow]
    rfl
  rw [Format.minExponent, mantissaBits_eq] at hlow
  push_cast at hlow
  omega

/-- The sign of a number is read as it was written. -/
private theorem ofBitVec_unpackSign (s : Sign) (exponent : BitVec spec.exponentBits)
    (mantissa : BitVec spec.mantissaBitsWithoutImplicit) :
    Sign.ofBitVec (unpackSign (packComponents spec s exponent mantissa)) = s := by
  have hsign : unpackSign (packComponents spec s exponent mantissa) = s.toBitVec := by
    ext i hi
    obtain rfl : i = 0 := by omega
    delta unpackSign packComponents
    simp [BitVec.getLsbD_append, BitVec.getElem_append]
  rw [hsign]
  cases s <;> rfl

/-- A number with an exponent that has no meaning of its own is read as its components say. -/
private theorem unpack_of_components {b : BitVec spec.numBits} (hones : unpackExponent b ≠ -1#_)
    (hzero : unpackExponent b ≠ 0#_) (hsign : Sign.ofBitVec (unpackSign b) = s)
    (hmantissa : (1#1 ++ unpackMantissa b).toNat = m)
    (hexponent : ((unpackExponent b).toNat : ℤ) -
      (spec.exponentBias + spec.mantissaBitsWithoutImplicit) = e) (hpositive : 0 < m) :
    UnpackedFloat.unpack spec b = .finite s m e hpositive := by
  subst hsign hmantissa hexponent
  exact (if_neg hones).trans (if_neg hzero)

/-- A zero survives being written down. -/
private theorem unpack_packedZero_eq (s : Sign) :
    UnpackedFloat.unpack spec (packedZero spec s) = .zero s := by
  have hexponent : unpackExponent (packedZero spec s) = 0#_ := unpackExponent_packComponents
  have hmantissa : unpackMantissa (packedZero spec s) = 0#_ := unpackMantissa_packComponents
  have hones : unpackExponent (packedZero spec s) ≠ -1#_ := by
    rw [hexponent]
    simp [Nat.ne_of_gt spec.he]
  calc UnpackedFloat.unpack spec (packedZero spec s)
      = .zero (Sign.ofBitVec (unpackSign (packedZero spec s))) :=
        (if_neg hones).trans ((if_pos hexponent).trans (dif_pos hmantissa))
    _ = .zero s := congrArg UnpackedFloat.zero (ofBitVec_unpackSign ..)

namespace Normal

private theorem log2_eq (hnormal : Normal spec m e) : m.log2 + 1 = spec.mantissaBits := by
  have hpositive := Nat.two_pow_pos spec.mantissaBitsWithoutImplicit
  have hfits := hnormal.fits
  rw [mantissaBits_eq] at hfits ⊢
  rw [(Nat.log2_eq_iff (by have := hnormal.leading; omega)).2 ⟨hnormal.leading, hfits⟩]

private theorem pos (hnormal : Normal spec m e) : 0 < m :=
  Nat.lt_of_lt_of_le (Nat.two_pow_pos _) hnormal.leading

/-- A number in the range survives being written down. -/
theorem unpack_pack (hnormal : Normal spec m e) (s : Sign) :
    UnpackedFloat.unpack spec (UnpackedFloat.pack spec (.finite s m e hnormal.pos)) =
      .finite s m e hnormal.pos := by
  have hpositive := exponent_pos hnormal.low
  have hfits : m < 2 ^ spec.mantissaBitsWithoutImplicit * 2 := by
    simpa [mantissaBits_eq, Nat.pow_succ] using hnormal.fits
  have hexponent : (BitVec.ofNat spec.exponentBits
      (e + spec.exponentBias + spec.mantissaBitsWithoutImplicit).toNat).toNat =
        (e + spec.exponentBias + spec.mantissaBitsWithoutImplicit).toNat := by
    rw [BitVec.toNat_ofNat, Nat.mod_eq_of_lt (by have := hnormal.high; omega)]
  have hmantissa : (1#1 ++ BitVec.ofNat spec.mantissaBitsWithoutImplicit m).toNat = m := by
    have hleading := hnormal.leading
    rw [toNat_one_append, BitVec.toNat_ofNat, Nat.mod_eq_sub_mod hleading, Nat.mod_eq_of_lt (by omega)]
    omega
  have hpack : UnpackedFloat.pack spec (.finite s m e hnormal.pos) = packComponents spec s
      (BitVec.ofNat _ (e + spec.exponentBias + spec.mantissaBitsWithoutImplicit).toNat)
      (BitVec.ofNat _ m) := (if_neg (Nat.not_le.2 hnormal.high)).trans (if_pos hnormal.log2_eq)
  rw [hpack]
  apply unpack_of_components
  · rw [unpackExponent_packComponents]
    intro hones
    rw [hones, BitVec.neg_one_eq_allOnes, BitVec.toNat_allOnes] at hexponent
    have := hnormal.high
    omega
  · rw [unpackExponent_packComponents]
    intro hzero
    rw [hzero] at hexponent
    simp at hexponent
    omega
  · exact ofBitVec_unpackSign ..
  · rw [unpackMantissa_packComponents, hmantissa]
  · rw [unpackExponent_packComponents, hexponent]
    omega

end Normal

/-- Rounding can bring one bit too many, so a number is shifted a second time. -/
private theorem roundWithAccuracy_eq {j : Nat} (hbits : m.log2 + 1 = spec.mantissaBits + k)
    (hlow : spec.minExponent ≤ e) (hagain : (roundedQuotient m k).log2 + 1 = spec.mantissaBits + j)
    (hpositive : 0 < roundedQuotient m k / 2 ^ j) :
    roundWithAccuracy spec s m e .exact = .finite s (roundedQuotient m k / 2 ^ j) (e + k + j) hpositive := by
  have hsecond := shiftToTargetExponent_exact hagain (show spec.minExponent ≤ e + k by omega)
  rw [roundedQuotient] at hsecond
  unfold roundWithAccuracy
  rw [shiftToTargetExponent_exact hbits hlow]
  dsimp only
  rw [hsecond, shiftRight_exact (ExtendedMantissa.roundedMantissa _)]
  exact dif_neg hpositive.ne'

/-- A number with at least the format's bits is rounded to a multiple of what its last bit stands for. -/
private theorem roundWithAccuracy_exact (hpositive : m ≠ 0) (hbits : m.log2 + 1 = spec.mantissaBits + k)
    (hlow : spec.minExponent ≤ e)
    (hhigh : (e + k + 1 + spec.exponentBias + spec.mantissaBitsWithoutImplicit).toNat + 1 <
      2 ^ spec.exponentBits) :
    ∃ m' e', ∃ hnormal : Normal spec m' e',
      roundWithAccuracy spec s m e .exact = .finite s m' e' hnormal.pos ∧
        (m' * 2 ^ e' : ℚ) = roundedQuotient m k * 2 ^ (e + k) := by
  obtain ⟨c, hbit, hrounded, -⟩ := roundedQuotient_eq m k
  have hwidth := mantissaBits_eq spec
  have hbounds := (Nat.log2_eq_iff hpositive).1 (show m.log2 = spec.mantissaBitsWithoutImplicit + k by omega)
  have hleading : 2 ^ spec.mantissaBitsWithoutImplicit ≤ m / 2 ^ k := by
    rw [Nat.le_div_iff_mul_le (Nat.two_pow_pos k), ← Nat.pow_add]
    exact hbounds.1
  have hfits : m / 2 ^ k < 2 ^ spec.mantissaBits := by
    rw [Nat.div_lt_iff_lt_mul (Nat.two_pow_pos k), ← Nat.pow_add, hwidth, Nat.add_right_comm]
    exact hbounds.2
  by_cases hfull : roundedQuotient m k < 2 ^ spec.mantissaBits
  · have hnormal : Normal spec (roundedQuotient m k / 2 ^ 0) (e + k + (0 : ℕ)) := by
      simp only [Nat.pow_zero, Nat.div_one]
      exact ⟨by omega, hfull, by omega, by omega⟩
    refine ⟨_, _, hnormal, roundWithAccuracy_eq hbits hlow ?_ _, by simp⟩
    simpa using hnormal.log2_eq
  · -- the quotient was all ones, so what it is rounded to is a power of two
    have hpower : roundedQuotient m k = 2 ^ spec.mantissaBits := by omega
    have hhalved : roundedQuotient m k / 2 ^ 1 = 2 ^ spec.mantissaBitsWithoutImplicit := by
      rw [hpower, hwidth, Nat.pow_div (by omega) (by norm_num), Nat.add_sub_cancel]
    have hnormal : Normal spec (roundedQuotient m k / 2 ^ 1) (e + k + (1 : ℕ)) := by
      rw [hhalved]
      exact ⟨le_rfl, by rw [hwidth]; exact Nat.pow_lt_pow_succ (by norm_num), by omega, hhigh⟩
    refine ⟨_, _, hnormal, roundWithAccuracy_eq hbits hlow ?_ _, ?_⟩
    · rw [hpower, Nat.log2_two_pow]
    · rw [hhalved, hpower, hwidth, zpow_add₀ (by norm_num) (e + k)]
      push_cast
      ring

private theorem two_pow_exponentBits (spec : Format) :
    2 ^ spec.exponentBits = 2 * 2 ^ (spec.exponentBits - 1) := by
  rw [← Nat.pow_succ', Nat.succ_eq_add_one, Nat.sub_add_cancel spec.he]

private theorem minExponent_le (hwide : 2 ≤ spec.exponentBits) :
    spec.minExponent ≤ 1 - spec.mantissaBits := by
  have htwo : (2 : ℤ) ^ 1 ≤ 2 ^ (spec.exponentBits - 1) := pow_le_pow_right₀ (by norm_num) (by omega)
  rw [Format.minExponent]
  omega

/-- An integer starts out with at least the format's bits. -/
private theorem round_eq (hwide : 2 ≤ spec.exponentBits) : UnpackedFloat.round spec s n 0 =
    roundWithAccuracy spec s (n * 2 ^ (spec.mantissaBits - (n.log2 + 1)))
      (-(spec.mantissaBits - (n.log2 + 1) : ℕ)) .exact := by
  have hleast := minExponent_le hwide
  have hwidth := mantissaBits_eq spec
  have hshift : (-spec.targetExponent (totalExponent n 0)).toNat = spec.mantissaBits - (n.log2 + 1) := by
    simp only [Format.targetExponent, totalExponent]
    omega
  simp only [UnpackedFloat.round, decreaseExponent, zero_sub, hshift, Nat.shiftLeft_eq]

private theorem log2_mul_two_pow (hpositive : n ≠ 0) (k : Nat) : (n * 2 ^ k).log2 = n.log2 + k := by
  have hbounds := (Nat.log2_eq_iff hpositive).1 rfl
  rw [Nat.log2_eq_iff (by positivity)]
  constructor
  · rw [Nat.pow_add]
    exact Nat.mul_le_mul_right _ hbounds.1
  · rw [Nat.add_right_comm, Nat.pow_add]
    exact Nat.mul_lt_mul_of_pos_right hbounds.2 (Nat.two_pow_pos k)

/-! ### Nearest numbers -/

/-- No number with the given count of significant bits is nearer. -/
def Nearest (bits : Nat) (q x : ℚ) : Prop :=
  ∀ t j : ℤ, |t| < 2 ^ bits → |q - x| ≤ |t * 2 ^ j - x|

namespace Nearest

variable {bits : Nat} {q x : ℚ}

/-- What is nearest to a number has its negation nearest to the opposite number. -/
theorem neg (hnearest : Nearest bits q x) : Nearest bits (-q) (-x) := by
  intro t j hsmall
  have hreflected := hnearest (-t) j (by rwa [abs_neg])
  rw [show -q - -x = -(q - x) by ring, abs_neg,
    show (t : ℚ) * 2 ^ j - -x = -((-t : ℤ) * 2 ^ j - x) by push_cast; ring, abs_neg]
  exact hreflected

/-- A number that is nearest to an integer has its sign. -/
theorem sign_eq {n : ℤ} (hnearest : Nearest bits q n) (hone : 0 < bits) :
    SignType.sign q = SignType.sign n := by
  have hlarge : (1 : ℤ) < 2 ^ bits := one_lt_pow₀ (by norm_num) hone.ne'
  rcases lt_trichotomy n 0 with hbelow | rfl | habove
  · have hleast : (n : ℚ) ≤ -1 := by exact_mod_cast (show n ≤ -1 by omega)
    have hbound : |q - n| ≤ |-1 - (n : ℚ)| := by simpa using hnearest (-1) 0 (by simpa using hlarge)
    rw [abs_of_nonneg (by linarith : (0 : ℚ) ≤ -1 - n)] at hbound
    have hnegative : q ≤ -1 := by linarith [le_abs_self (q - n)]
    rw [sign_neg hbelow, sign_neg (by linarith)]
  · have hbound := hnearest 0 0 (by simp)
    have hzero : q = 0 := by simpa using hbound
    rw [hzero, sign_zero, sign_zero]
  · have hleast : (1 : ℚ) ≤ n := by exact_mod_cast habove
    have hbound : |q - n| ≤ |1 - (n : ℚ)| := by simpa using hnearest 1 0 (by simpa using hlarge)
    rw [abs_of_nonpos (by linarith : (1 : ℚ) - n ≤ 0)] at hbound
    have hpositive : 1 ≤ q := by linarith [neg_abs_le (q - n)]
    rw [sign_pos habove, sign_pos (by linarith)]

end Nearest

/-- A number that is rounded after a shift is nearest to what it was: numbers with a lower last bit are
too small. -/
private theorem nearest_roundedQuotient {bits : Nat} (hleading : 2 ^ bits ≤ n / 2 ^ k) :
    Nearest (bits + 1) (roundedQuotient n k * 2 ^ k) n := by
  have hmultiple (t : ℤ) : |(roundedQuotient n k * 2 ^ k : ℚ) - n| ≤ |(t : ℚ) * 2 ^ k - n| := by
    exact_mod_cast abs_roundedQuotient_sub_le n k t
  intro t j hsmall
  by_cases hhigh : (k : ℤ) ≤ j
  · obtain ⟨d, rfl⟩ := Int.le.dest hhigh
    have hbound := hmultiple (t * 2 ^ d)
    rw [zpow_add₀ (by norm_num), zpow_natCast, zpow_natCast, mul_comm (2 ^ k : ℚ), ← mul_assoc]
    exact_mod_cast hbound
  · have hbelow : (t : ℚ) * 2 ^ j ≤ (n / 2 ^ k : ℕ) * 2 ^ k := by
      have hlead : (2 : ℚ) ^ bits ≤ (n / 2 ^ k : ℕ) := by exact_mod_cast hleading
      have hsize : (t : ℚ) ≤ 2 ^ (bits + 1) := by exact_mod_cast (le_abs_self t).trans hsmall.le
      calc (t : ℚ) * 2 ^ j ≤ 2 ^ (bits + 1) * 2 ^ ((k : ℤ) - 1) := by
            gcongr
            · norm_num
            · omega
        _ = 2 ^ bits * 2 ^ k := by
            rw [zpow_sub₀ (by norm_num), zpow_natCast, zpow_one, pow_succ]
            ring
        _ ≤ (n / 2 ^ k : ℕ) * 2 ^ k := by gcongr
    have hfloor : ((n / 2 ^ k : ℕ) * 2 ^ k : ℚ) ≤ n := by exact_mod_cast Nat.div_mul_le_self n (2 ^ k)
    have hbound := hmultiple (n / 2 ^ k : ℕ)
    rw [Int.cast_natCast, abs_of_nonpos (by linarith : ((n / 2 ^ k : ℕ) * 2 ^ k : ℚ) - n ≤ 0)] at hbound
    rw [abs_of_nonpos (by linarith : (t : ℚ) * 2 ^ j - n ≤ 0)]
    linarith

private theorem mantissa_high (hwide : 8 ≤ spec.exponentBits) (hsmall : n < 64) :
    ((n + 1 - spec.mantissaBits : ℤ) + 1 + spec.exponentBias + spec.mantissaBitsWithoutImplicit).toNat + 1 <
      2 ^ spec.exponentBits := by
  have hlarge : 2 ^ 7 ≤ 2 ^ (spec.exponentBits - 1) := Nat.pow_le_pow_right (by norm_num) (by omega)
  rw [two_pow_exponentBits, mantissaBits_eq, Format.exponentBias]
  omega

/-- An integer is rounded to a number in the format's range that is nearest to it. -/
theorem exists_round (hwide : 8 ≤ spec.exponentBits) (hpositive : n ≠ 0) (hsmall : n < 2 ^ 64) (s : Sign) :
    ∃ m e, ∃ hnormal : Normal spec m e, UnpackedFloat.round spec s n 0 = .finite s m e hnormal.pos ∧
      Nearest spec.mantissaBits (m * 2 ^ e) n := by
  have hleast := minExponent_le (by omega : 2 ≤ spec.exponentBits)
  have hwidth := mantissaBits_eq spec
  have hhigh := mantissa_high hwide ((Nat.log2_lt hpositive).2 hsmall)
  rw [round_eq (by omega)]
  by_cases hshort : n.log2 + 1 ≤ spec.mantissaBits
  · -- the integer has no more bits than the format
    have hbits : (n * 2 ^ (spec.mantissaBits - (n.log2 + 1))).log2 + 1 = spec.mantissaBits + 0 := by
      rw [log2_mul_two_pow hpositive]
      omega
    obtain ⟨m, e, hnormal, hrounded, hvalue⟩ := roundWithAccuracy_exact (by positivity) hbits
      (show spec.minExponent ≤ -(spec.mantissaBits - (n.log2 + 1) : ℕ) by omega) (s := s) (by omega)
    refine ⟨m, e, hnormal, hrounded, ?_⟩
    have hsame : (m * 2 ^ e : ℚ) = n := by
      rw [hvalue, roundedQuotient_zero]
      push_cast
      rw [add_zero, mul_assoc, zpow_neg, zpow_natCast, mul_inv_cancel₀ (by positivity), mul_one]
    intro t j hsmall
    rw [hsame, sub_self, abs_zero]
    exact abs_nonneg _
  · -- the integer loses its last bits
    obtain ⟨k, hbits⟩ : ∃ k, n.log2 + 1 = spec.mantissaBits + k :=
      ⟨n.log2 + 1 - spec.mantissaBits, by omega⟩
    have hbounds := (Nat.log2_eq_iff hpositive).1
        (show n.log2 = spec.mantissaBitsWithoutImplicit + k by omega)
    rw [show spec.mantissaBits - (n.log2 + 1) = 0 by omega, pow_zero, mul_one]
    obtain ⟨m, e, hnormal, hrounded, hvalue⟩ := roundWithAccuracy_exact hpositive hbits
      (show spec.minExponent ≤ -(0 : ℕ) by omega) (s := s) (by omega)
    refine ⟨m, e, hnormal, hrounded, ?_⟩
    rw [hvalue, Nat.cast_zero, neg_zero, zero_add, zpow_natCast, hwidth]
    apply nearest_roundedQuotient
    rw [Nat.le_div_iff_mul_le (Nat.two_pow_pos k), ← Nat.pow_add]
    exact hbounds.1

/-- The mantissa of a finite number has at most the format's bits. -/
private theorem mantissa_lt_of_unpack {b : BitVec spec.numBits} {hm : 0 < m}
    (h : UnpackedFloat.unpack spec b = .finite s m e hm) : m < 2 ^ spec.mantissaBits := by
  have hbits := (unpackMantissa b).isLt
  have hdouble : 2 ^ spec.mantissaBits = 2 * 2 ^ spec.mantissaBitsWithoutImplicit := by
    rw [mantissaBits_eq, Nat.pow_succ']
  by_cases hones : unpackExponent b = -1#_
  · by_cases hmantissa : unpackMantissa b = 0#_
    · have hread : UnpackedFloat.unpack spec b = .infinity _ := (if_pos hones).trans (if_pos hmantissa)
      cases h.symm.trans hread
    · have hread : UnpackedFloat.unpack spec b = .notANumber := (if_pos hones).trans (if_neg hmantissa)
      cases h.symm.trans hread
  · by_cases hzero : unpackExponent b = 0#_
    · by_cases hmantissa : unpackMantissa b = 0#_
      · have hread : UnpackedFloat.unpack spec b = .zero _ :=
          (if_neg hones).trans ((if_pos hzero).trans (dif_pos hmantissa))
        cases h.symm.trans hread
      · have hread : UnpackedFloat.unpack spec b = .finite _ (unpackMantissa b).toNat _ _ :=
          (if_neg hones).trans ((if_pos hzero).trans (dif_neg hmantissa))
        obtain ⟨-, rfl, -⟩ := UnpackedFloat.finite.inj (h.symm.trans hread)
        omega
    · have hread := unpack_of_components hones hzero rfl rfl rfl (by rw [toNat_one_append]; positivity)
      obtain ⟨-, rfl, -⟩ := UnpackedFloat.finite.inj (h.symm.trans hread)
      rw [toNat_one_append]
      omega

/-- A finite number of the format has at most the format's bits. -/
theorem exists_of_unpackedValue? (b : BitVec spec.numBits) {q : ℚ}
    (hvalue : unpackedValue? (UnpackedFloat.unpack spec b) = some q) :
    ∃ t j : ℤ, |t| < 2 ^ spec.mantissaBits ∧ q = t * 2 ^ j := by
  cases hread : UnpackedFloat.unpack spec b with
  | finite s m e hm =>
    rw [hread] at hvalue
    obtain rfl := Option.some_inj.1 hvalue
    refine ⟨s.apply m, e, ?_, rfl⟩
    have hlt : (m : ℤ) < 2 ^ spec.mantissaBits := by exact_mod_cast mantissa_lt_of_unpack hread
    cases s <;> simpa [Sign.apply] using hlt
  | zero s =>
    rw [hread] at hvalue
    obtain rfl := Option.some_inj.1 hvalue
    exact ⟨0, 0, by simp, by simp⟩
  | _ =>
    rw [hread] at hvalue
    cases hvalue

/-- An integer written down as a floating-point number, and its negation, are read as what is nearest. -/
theorem exists_nearest_ofNat (spec : Format) (hwide : 8 ≤ spec.exponentBits) (hsmall : n < 2 ^ 64) :
    ∃ x q, UnpackedFloat.unpack spec (UnpackedFloat.pack spec (UnpackedFloat.ofNat spec n)) = x ∧
      UnpackedFloat.unpack spec (UnpackedFloat.pack spec x.neg) = x.neg ∧ unpackedValue? x = some q ∧
        Nearest spec.mantissaBits q n := by
  by_cases hzero : n = 0
  · subst hzero
    refine ⟨.zero .positive, 0, unpack_packedZero_eq _, unpack_packedZero_eq _, rfl, ?_⟩
    intro t j hsmall
    simp only [Nat.cast_zero, sub_self, abs_zero]
    exact abs_nonneg _
  · obtain ⟨m, e, hnormal, hrounded, hnearest⟩ := exists_round hwide hzero hsmall .positive
    have hstart : UnpackedFloat.ofNat spec n = .finite .positive m e hnormal.pos := by
      rw [UnpackedFloat.ofNat, UnpackedFloat.ofInt, UnpackedFloat.normalize, compare_gt_iff_gt.2 (by omega)]
      exact hrounded
    rw [hstart]
    exact ⟨_, _, hnormal.unpack_pack _, hnormal.unpack_pack _, rfl, hnearest⟩

end MethodCompiler.Rounding
