import Mathlib.Algebra.Order.Field.Power
import Mathlib.Tactic.Linarith
import Mathlib.Tactic.Positivity
import MatrixScript.Proofs.Values.WholeNumbers

/-!
# The order of numbers

The bits of a magnitude are an exponent and below it a fraction, so counting them up by one goes
through the magnitudes in ascending order. Therefore comparing doubles compares the numbers that
they stand for.
-/

namespace MatrixScript

namespace Double

/-- The number that the bits of a magnitude stand for. -/
def magnitudeNumber (n : Nat) : ℚ :=
  if n < 2 ^ 52 then n * 2 ^ (-1074 : ℤ)
  else (n % 2 ^ 52 + 2 ^ 52 : Nat) * 2 ^ ((n / 2 ^ 52 : Nat) - 1075 : ℤ)

theorem magnitudeNumber_lt_succ (n : Nat) : magnitudeNumber n < magnitudeNumber (n + 1) := by
  have htwo : (2 : ℚ) ≠ 0 := two_ne_zero
  unfold magnitudeNumber
  by_cases hsmall : n + 1 < 2 ^ 52
  · rw [if_pos (by omega), if_pos hsmall]
    gcongr
    exact Nat.lt_succ_self n
  by_cases hsubnormal : n < 2 ^ 52
  · -- the first normal number follows on the last subnormal one
    obtain rfl : n = 2 ^ 52 - 1 := by omega
    rw [if_pos hsubnormal, if_neg hsmall]
    norm_num
  rw [if_neg hsubnormal, if_neg hsmall]
  by_cases hcarry : n % 2 ^ 52 = 2 ^ 52 - 1
  · -- the fraction starts over, with an exponent larger by one
    have hmod : (n + 1) % 2 ^ 52 = 0 := by omega
    have hdiv : (n + 1) / 2 ^ 52 = n / 2 ^ 52 + 1 := by omega
    have hexponent : ((n / 2 ^ 52 + 1 : Nat) - 1075 : ℤ) = ((n / 2 ^ 52 : Nat) - 1075 : ℤ) + 1 := by
      push_cast
      ring
    rw [hcarry, hmod, hdiv, hexponent, zpow_add_one₀ htwo]
    have hpos : (0 : ℚ) < 2 ^ ((n / 2 ^ 52 : Nat) - 1075 : ℤ) := by positivity
    generalize (2 : ℚ) ^ ((n / 2 ^ 52 : Nat) - 1075 : ℤ) = unit at hpos
    norm_num
    linarith
  · have hmod : (n + 1) % 2 ^ 52 = n % 2 ^ 52 + 1 := by omega
    have hdiv : (n + 1) / 2 ^ 52 = n / 2 ^ 52 := by omega
    rw [hmod, hdiv]
    gcongr
    omega

theorem magnitudeNumber_strictMono : StrictMono magnitudeNumber :=
  strictMono_nat_of_lt_succ magnitudeNumber_lt_succ

theorem magnitudeNumber_zero : magnitudeNumber 0 = 0 := by
  rw [magnitudeNumber, if_pos (by decide), Nat.cast_zero, zero_mul]

variable {x y : Double}

theorem magnitude_toNat (x : Double) : x.magnitude.toNat = x.bits.toNat % 2 ^ 63 := by
  have hmask : (0x7FFFFFFFFFFFFFFF : UInt64).toNat = 2 ^ 63 - 1 := rfl
  rw [magnitude, UInt64.toNat_and, hmask, Nat.and_two_pow_sub_one_eq_mod]

theorem toRat_eq (x : Double) : x.toRat
    = (if x.isNegative then -1 else 1) * magnitudeNumber x.magnitude.toNat := by
  have hmask : (0x000FFFFFFFFFFFFF : UInt64).toNat = 2 ^ 52 - 1 := rfl
  have hleast : leastNormal.bits.toNat = 2 ^ 52 := rfl
  have hfraction : (x.bits &&& 0x000FFFFFFFFFFFFF).toNat = x.magnitude.toNat % 2 ^ 52 := by
    rw [UInt64.toNat_and, hmask, Nat.and_two_pow_sub_one_eq_mod, magnitude_toNat]
    omega
  have hsmall : x.magnitude < leastNormal.bits ↔ x.magnitude.toNat < 2 ^ 52 := by
    rw [UInt64.lt_iff_toNat_lt, hleast]
  rw [toRat]
  congr 1
  unfold significand exponent magnitudeNumber
  dsimp only
  rw [hfraction]
  by_cases h : x.magnitude.toNat < 2 ^ 52
  · rw [if_pos (hsmall.mpr h), if_pos (hsmall.mpr h), if_pos h, Nat.mod_eq_of_lt h]
  · have hshift : (x.magnitude >>> 52).toNat = x.magnitude.toNat / 2 ^ 52 := by
      rw [UInt64.toNat_shiftRight, ← Nat.shiftRight_eq_div_pow]
      rfl
    rw [if_neg (mt hsmall.mp h), if_neg (mt hsmall.mp h), if_neg h, hshift]
    rfl

/-- Of two numbers the lower one comes first in the order of doubles. -/
theorem toRat_lt_toRat (h : x.lt y = true) : x.toRat < y.toRat := by
  have hmono := magnitudeNumber_strictMono
  have hx := magnitude_toNat x
  have hy := magnitude_toNat y
  obtain ⟨hparts, hkeys⟩ := Bool.and_eq_true_iff.mp h
  have hzeros := (Bool.and_eq_true_iff.mp hparts).2
  have hkeys := UInt64.lt_iff_toNat_lt.mp (of_decide_eq_true hkeys)
  rw [toRat_eq, toRat_eq]
  cases hxn : x.isNegative <;> cases hyn : y.isNegative
  · rw [orderKey_toNat hxn, orderKey_toNat hyn] at hkeys
    have hxb := toNat_bits_lt hxn
    have hyb := toNat_bits_lt hyn
    simpa using hmono (show x.magnitude.toNat < y.magnitude.toNat by omega)
  · rw [orderKey_toNat hxn, orderKey_toNat_of_isNegative hyn] at hkeys
    have hyb := two_pow_le_bits hyn
    omega
  · -- a negative zero is not below the other one
    have hsome : 0 < x.magnitude.toNat ∨ 0 < y.magnitude.toNat := by
      by_contra hnone
      rw [not_or, Nat.not_lt, Nat.not_lt, Nat.le_zero, Nat.le_zero] at hnone
      have hzero (z : Double) (hz : z.magnitude.toNat = 0) : z.isZero = true :=
        decide_eq_true (UInt64.toNat_inj.mp hz)
      rw [hzero x hnone.1, hzero y hnone.2] at hzeros
      cases hzeros
    have hxle := hmono.monotone (Nat.zero_le x.magnitude.toNat)
    have hyle := hmono.monotone (Nat.zero_le y.magnitude.toNat)
    rw [magnitudeNumber_zero] at hxle hyle
    rcases hsome with hpos | hpos
    · have hlt := hmono hpos
      rw [magnitudeNumber_zero] at hlt
      simp only [if_true, Bool.false_eq_true, if_false]
      linarith
    · have hlt := hmono hpos
      rw [magnitudeNumber_zero] at hlt
      simp only [if_true, Bool.false_eq_true, if_false]
      linarith
  · rw [orderKey_toNat_of_isNegative hxn, orderKey_toNat_of_isNegative hyn] at hkeys
    have hxb := two_pow_le_bits hxn
    have hyb := two_pow_le_bits hyn
    have hxs := x.bits.toNat_lt
    simpa using hmono (show y.magnitude.toNat < x.magnitude.toNat by omega)

end Double

end MatrixScript
