import Mathlib.Algebra.Group.Nat.Defs
import MatrixScript.Matrix.Basic

/-!
# The bits of doubles

The bits of a double that is not negative grow with it, and the total order tells all doubles apart.
Rounding down only clears bits, and the bits below those of a power of two stand for a number below
that power, so a number below the limit of elements is counted as less than the limit.
-/

namespace MatrixScript

namespace Double

variable {x y : Double}

theorem toNat_bits_lt (h : x.isNegative = false) : x.bits.toNat < 2 ^ 63 := by
  have hlt := of_decide_eq_false h
  rw [UInt64.le_iff_toNat_le] at hlt
  exact Nat.lt_of_not_le hlt

theorem magnitude_eq_bits (h : x.isNegative = false) : x.magnitude = x.bits := by
  have hmask : (0x7FFFFFFFFFFFFFFF : UInt64).toNat = 2 ^ 63 - 1 := rfl
  apply UInt64.toNat_inj.mp
  rw [magnitude, UInt64.toNat_and, hmask, Nat.and_two_pow_sub_one_eq_mod,
    Nat.mod_eq_of_lt (toNat_bits_lt h)]

theorem isNaN_of_isFinite (h : x.isFinite = true) : x.isNaN = false := by
  have hbits := of_decide_eq_true h
  rw [UInt64.lt_iff_toNat_lt] at hbits
  refine decide_eq_false fun hnan => ?_
  rw [UInt64.lt_iff_toNat_lt] at hnan
  omega

theorem magnitude_le (x : Double) : x.magnitude ≤ x.bits := UInt64.and_le_left

/-- Numbers that are not negative are ordered as their bits. -/
theorem orderKey_toNat (h : x.isNegative = false) :
    x.orderKey.toNat = 2 ^ 63 + x.bits.toNat := by
  have hor : 2 ^ 63 + x.bits.toNat = 2 ^ 63 ||| x.bits.toNat :=
    Nat.two_pow_add_eq_or_of_lt (toNat_bits_lt h) 1
  have hsign : signBit.toNat = 2 ^ 63 := rfl
  rw [orderKey, h, if_neg Bool.false_ne_true, UInt64.toNat_or, hsign, Nat.or_comm, ← hor]

theorem orderKey_toNat_of_isNegative (h : x.isNegative = true) :
    x.orderKey.toNat = 2 ^ 64 - 1 - x.bits.toNat := by
  have hsize : UInt64.size = 2 ^ 64 := rfl
  rw [orderKey, h, if_pos rfl, UInt64.toNat_not, hsize]

theorem two_pow_le_bits (h : x.isNegative = true) : 2 ^ 63 ≤ x.bits.toNat :=
  UInt64.le_iff_toNat_le.mp (of_decide_eq_true h)

/-- Different doubles have different places in the total order. -/
theorem orderKey_inj (h : x.orderKey = y.orderKey) : x = y := by
  have hkeys := congrArg UInt64.toNat h
  have hbits : x.bits.toNat = y.bits.toNat := by
    have hx := x.bits.toNat_lt
    have hy := y.bits.toNat_lt
    cases hxn : x.isNegative <;> cases hyn : y.isNegative
    · rw [orderKey_toNat hxn, orderKey_toNat hyn] at hkeys
      omega
    · rw [orderKey_toNat hxn, orderKey_toNat_of_isNegative hyn] at hkeys
      have := two_pow_le_bits hyn
      omega
    · rw [orderKey_toNat_of_isNegative hxn, orderKey_toNat hyn] at hkeys
      have := two_pow_le_bits hxn
      omega
    · rw [orderKey_toNat_of_isNegative hxn, orderKey_toNat_of_isNegative hyn] at hkeys
      omega
  exact congrArg Double.mk (UInt64.toNat_inj.mp hbits)

theorem bits_le_of_lt_eq_false (hx : x.isNegative = false) (hy : y.isNegative = false)
    (hxn : x.isNaN = false) (hyn : y.isNaN = false) (hyz : y.isZero = false)
    (h : y.lt x = false) : x.bits.toNat ≤ y.bits.toNat := by
  unfold lt at h
  rw [hxn, hyn, hyz] at h
  have hkeys := of_decide_eq_false h
  rw [UInt64.lt_iff_toNat_lt, orderKey_toNat hx, orderKey_toNat hy] at hkeys
  omega

/-- Rounding towards zero clears bits. -/
theorem trunc_bits_le (x : Double) : x.trunc.bits ≤ x.bits := by
  unfold trunc
  dsimp only
  split
  · exact UInt64.and_le_left
  · split
    · exact UInt64.le_refl _
    · exact UInt64.and_le_left

theorem isNegative_of_bits_le (hx : x.isNegative = false) (h : y.bits ≤ x.bits) :
    y.isNegative = false := by
  refine decide_eq_false fun hy => ?_
  have hlt := toNat_bits_lt hx
  rw [UInt64.le_iff_toNat_le] at h hy
  have hsign : signBit.toNat = 2 ^ 63 := rfl
  omega

theorem floor_eq_trunc (h : x.isNegative = false) : x.floor = x.trunc := by
  have hle := trunc_bits_le x
  have hlt : x.lt x.trunc = false := by
    refine Bool.eq_false_iff.mpr fun hlt => ?_
    have hkeys := of_decide_eq_true (Bool.and_eq_true_iff.mp hlt).2
    rw [UInt64.lt_iff_toNat_lt, orderKey_toNat h,
      orderKey_toNat (isNegative_of_bits_le h hle)] at hkeys
    rw [UInt64.le_iff_toNat_le] at hle
    omega
  rw [floor, hlt, if_neg Bool.false_ne_true]

theorem significand_lt (x : Double) : x.significand < 2 ^ 53 := by
  have hfraction : (x.bits &&& 0x000FFFFFFFFFFFFF).toNat ≤ 0x000FFFFFFFFFFFFF := by
    rw [UInt64.toNat_and]
    exact Nat.and_le_right
  unfold significand
  dsimp only
  split <;> omega

/-- Bits below those of `2 ^ 27` stand for a number below it. -/
theorem toCount_lt (h : x.bits.toNat < 0x41A0000000000000) : x.toCount < 2 ^ 27 := by
  have hmagnitude := UInt64.le_iff_toNat_le.mp (magnitude_le x)
  have hexponent : x.exponent ≤ -26 := by
    unfold exponent
    split
    · decide
    · rw [UInt64.toNat_shiftRight]
      change (((x.magnitude.toNat >>> 52 : Nat) : Int) - 1075 ≤ -26)
      rw [Nat.shiftRight_eq_div_pow]
      omega
  have hfinite : x.isFinite = true := by
    refine decide_eq_true (UInt64.lt_iff_toNat_lt.mpr ?_)
    have hbits : infinityBits.toNat = 0x7FF0000000000000 := rfl
    omega
  unfold toCount toNatBelow
  split
  · decide
  · rw [hfinite, Bool.not_true, if_neg Bool.false_ne_true, if_neg (by omega)]
    have hshift : x.significand >>> (-x.exponent).toNat ≤ x.significand >>> 26 := by
      rw [Nat.shiftRight_eq_div_pow, Nat.shiftRight_eq_div_pow]
      exact Nat.div_le_div_left (Nat.pow_le_pow_right (by decide) (by omega)) (by decide)
    have hsignificand := significand_lt x
    rw [Nat.shiftRight_eq_div_pow x.significand 26] at hshift
    omega

/-- The one negative number that is not below zero. -/
theorem eq_negativeZero (hx : x.isNegative = true) (hn : x.isNaN = false)
    (h : x.lt zero = false) : x = negativeZero := by
  have hbits := two_pow_le_bits hx
  have hsize := x.bits.toNat_lt
  have hkey : x.orderKey < zero.orderKey := by
    have hzero : zero.orderKey.toNat = 2 ^ 63 := rfl
    rw [UInt64.lt_iff_toNat_lt, hzero, orderKey_toNat_of_isNegative hx]
    omega
  have hzero : x.isZero = true := by
    have hzero : zero.isNaN = false := rfl
    unfold lt at h
    rw [hn, hzero, decide_eq_true hkey] at h
    have hboth : (x.isZero && zero.isZero) = true := by simpa using h
    exact (Bool.and_eq_true_iff.mp hboth).1
  have hmagnitude : x.bits.toNat % 2 ^ 63 = 0 := by
    have hmask : (0x7FFFFFFFFFFFFFFF : UInt64).toNat = 2 ^ 63 - 1 := rfl
    have hand := congrArg UInt64.toNat (of_decide_eq_true hzero)
    rwa [magnitude, UInt64.toNat_and, hmask, Nat.and_two_pow_sub_one_eq_mod] at hand
  have heq : x.bits.toNat = 2 ^ 63 := by omega
  exact congrArg Double.mk (UInt64.toNat_inj.mp heq)

/-- Rounding down a finite number below `2 ^ 27` that is not negative. -/
theorem toCount_floor_lt (hfinite : x.isFinite = true) (hstart : x.lt zero = false)
    (hstop : (Double.ofNat elementLimit).le x = false) : x.floor.toCount < elementLimit := by
  have hn := isNaN_of_isFinite hfinite
  cases hx : x.isNegative with
  | true =>
      obtain rfl := eq_negativeZero hx hn hstart
      decide
  | false =>
      have hlimit : Double.ofNat elementLimit = ⟨0x41A0000000000000⟩ := by decide +kernel
      rw [hlimit] at hstop
      obtain ⟨hlt, heq⟩ := Bool.or_eq_false_iff.mp hstop
      have hle := bits_le_of_lt_eq_false hx rfl hn rfl rfl hlt
      have hne : x.bits.toNat ≠ 0x41A0000000000000 := by
        intro h
        obtain rfl : x = ⟨0x41A0000000000000⟩ := congrArg Double.mk (UInt64.toNat_inj.mp h)
        cases heq
      have hbits : x.bits.toNat < 0x41A0000000000000 := Nat.lt_of_le_of_ne hle hne
      have htrunc := UInt64.le_iff_toNat_le.mp (trunc_bits_le x)
      rw [floor_eq_trunc hx]
      exact toCount_lt (Nat.lt_of_le_of_lt htrunc hbits)

end Double

end MatrixScript
