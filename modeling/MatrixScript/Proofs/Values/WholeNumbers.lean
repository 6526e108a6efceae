import Mathlib.Data.Nat.Log
import Mathlib.Tactic.Ring
import MatrixScript.Proofs.Values.Doubles
import MatrixScript.Value.Basic

/-!
# Whole numbers as doubles

A natural number below `2 ^ 53` is a double without any rounding: its binary digits, moved up to 53
places, are the significand. So it can be read back, as a number and as a count.
-/

namespace MatrixScript

namespace Double

/-- The number that a finite double stands for. -/
def toRat (x : Double) : ℚ :=
  (if x.isNegative then -1 else 1) * (x.significand * 2 ^ x.exponent)

section Digits

variable {n : Nat}

/-- The digits of a number, moved up so that the highest of them has place 52. -/
theorem digits_bounds (hpos : 0 < n) (h : n < 2 ^ 53) :
    2 ^ 52 ≤ n * 2 ^ (52 - n.log2) ∧ n * 2 ^ (52 - n.log2) < 2 ^ 53 := by
  have hlog : n.log2 < 53 := (Nat.log2_lt (Nat.ne_of_gt hpos)).mpr h
  have hlow : 2 ^ n.log2 ≤ n := Nat.log2_self_le (Nat.ne_of_gt hpos)
  have hhigh : n < 2 ^ (n.log2 + 1) := Nat.lt_log2_self
  constructor
  · calc 2 ^ 52 = 2 ^ n.log2 * 2 ^ (52 - n.log2) := by rw [← pow_add]; congr 1; omega
      _ ≤ n * 2 ^ (52 - n.log2) := Nat.mul_le_mul_right _ hlow
  · calc n * 2 ^ (52 - n.log2) < 2 ^ (n.log2 + 1) * 2 ^ (52 - n.log2) :=
          Nat.mul_lt_mul_of_pos_right hhigh (Nat.two_pow_pos _)
      _ = 2 ^ 53 := by rw [← pow_add]; congr 1; omega

theorem scaled_one (hpos : 0 < n) (h : n < 2 ^ 53) :
    scaled n 1 ((n.log2 : Int) - 52) = (n * 2 ^ (52 - n.log2), 1) := by
  have hlog : n.log2 < 53 := (Nat.log2_lt (Nat.ne_of_gt hpos)).mpr h
  unfold scaled
  split
  · have htop : n.log2 = 52 := by omega
    rw [htop]
    simp
  · have hshift : (-((n.log2 : Int) - 52)).toNat = 52 - n.log2 := by omega
    rw [hshift, Nat.shiftLeft_eq]

theorem unitExponent_one (hpos : 0 < n) (h : n < 2 ^ 53) :
    unitExponent n 1 = (n.log2 : Int) - 52 := by
  have hlog : n.log2 < 53 := (Nat.log2_lt (Nat.ne_of_gt hpos)).mpr h
  have hone : Nat.log2 1 = 0 := by decide
  have hguess : Max.max ((n.log2 : Int) - (Nat.log2 1 : Nat) - 53) (-1074) = (n.log2 : Int) - 53 := by
    rw [hone]
    omega
  have hshift : (-((n.log2 : Int) - 53)).toNat = 52 - n.log2 + 1 := by omega
  have hfull : 9007199254740992 ≤ n <<< (52 - n.log2 + 1) / 1 := by
    have hlow := (digits_bounds hpos h).1
    rw [Nat.div_one, Nat.shiftLeft_eq, pow_succ, ← Nat.mul_assoc]
    omega
  have hscaled : scaled n 1 ((n.log2 : Int) - 53) = (n <<< (52 - n.log2 + 1), 1) := by
    rw [scaled, if_neg (by omega), hshift]
  unfold unitExponent
  simp only [hguess, hscaled, if_pos hfull]
  omega

theorem roundedQuotient_one (m : Nat) : roundedQuotient m 1 = m := by
  unfold roundedQuotient
  simp [Nat.mod_one]

theorem ofNat_eq (hpos : 0 < n) (h : n < 2 ^ 53) : ofNat n
    = ⟨UInt64.ofNat (n * 2 ^ (52 - n.log2) + (n.log2 + 1022) * 4503599627370496)⟩ := by
  have hlog : n.log2 < 53 := (Nat.log2_lt (Nat.ne_of_gt hpos)).mpr h
  have hdigits := digits_bounds hpos h
  have hunit : ((n.log2 : Int) - 52 + 1074).toNat = n.log2 + 1022 := by omega
  have hinfinity : infinityBits.toNat = 0x7FF0000000000000 := rfl
  have hbelow : n * 2 ^ (52 - n.log2) + (n.log2 + 1022) * 4503599627370496
      < infinityBits.toNat := by
    rw [hinfinity]
    omega
  simp only [ofNat, ofRatio, Nat.ne_of_gt hpos, if_false, unitExponent_one hpos h,
    scaled_one hpos h, roundedQuotient_one, hunit, hbelow, if_true]

theorem ofNat_bits (hpos : 0 < n) (h : n < 2 ^ 53) : (ofNat n).bits.toNat
    = n * 2 ^ (52 - n.log2) + (n.log2 + 1022) * 4503599627370496 := by
  have hlog : n.log2 < 53 := (Nat.log2_lt (Nat.ne_of_gt hpos)).mpr h
  have hdigits := digits_bounds hpos h
  have hsize : UInt64.size = 18446744073709551616 := rfl
  rw [ofNat_eq hpos h]
  exact UInt64.toNat_ofNat_of_lt' (by rw [hsize]; omega)

end Digits

/-! ### Masks -/

theorem and_not_of_and_eq_zero {x m : UInt64} (h : x &&& m = 0) : x &&& ~~~m = x := by
  apply UInt64.eq_of_toBitVec_eq
  ext i hi
  have hbit := congrArg (fun y : UInt64 => y.toBitVec[i]) h
  simp only [UInt64.toBitVec_and, UInt64.toBitVec_not, BitVec.getElem_and, BitVec.getElem_not,
    UInt64.toBitVec_zero, BitVec.getElem_zero] at hbit ⊢
  cases hx : x.toBitVec[i] with
  | false => rfl
  | true =>
      rw [hx, Bool.true_and] at hbit
      rw [hbit]
      rfl

theorem and_eq_zero_of_and_not {x m : UInt64} (h : x &&& ~~~m = x) : x &&& m = 0 := by
  rw [← h, UInt64.and_assoc]
  simp

theorem two_pow_split {k : Nat} (hk : k ≤ 52) : 2 ^ 52 = 2 ^ (52 - k) * 2 ^ k := by
  rw [← pow_add, Nat.sub_add_cancel hk]

theorem shiftedMask {s : UInt64} {k : Nat} (hs : s.toNat = k) (hk : k ≤ 52) :
    ((0x000FFFFFFFFFFFFF : UInt64) >>> s).toNat = 2 ^ (52 - k) - 1 := by
  have hall : (0x000FFFFFFFFFFFFF : UInt64).toNat = 2 ^ 52 - 1 := rfl
  have hpow := Nat.two_pow_pos k
  have hfactor := two_pow_split hk
  rw [UInt64.toNat_shiftRight, hs, Nat.mod_eq_of_lt (by omega), hall, Nat.shiftRight_eq_div_pow]
  refine Nat.div_eq_of_lt_le ?_ ?_
  · rw [Nat.sub_mul, ← hfactor, Nat.one_mul]
    exact Nat.sub_le_sub_left hpow _
  · rw [Nat.sub_add_cancel (Nat.two_pow_pos _), ← hfactor]
    exact Nat.sub_lt (Nat.two_pow_pos 52) Nat.one_pos

/-! ### Whole numbers -/

section Whole

variable {n : Nat} (hpos : 0 < n) (h : n < 2 ^ 53)

include hpos h

theorem isNegative_ofNat : (ofNat n).isNegative = false := by
  have hlog : n.log2 < 53 := (Nat.log2_lt (Nat.ne_of_gt hpos)).mpr h
  have hdigits := digits_bounds hpos h
  have hbits := ofNat_bits hpos h
  have hsign : signBit.toNat = 2 ^ 63 := rfl
  refine decide_eq_false fun hle => ?_
  rw [UInt64.le_iff_toNat_le] at hle
  omega

theorem ofNat_magnitude : (ofNat n).magnitude = (ofNat n).bits :=
  magnitude_eq_bits (isNegative_ofNat hpos h)

theorem isFinite_ofNat : (ofNat n).isFinite = true := by
  have hlog : n.log2 < 53 := (Nat.log2_lt (Nat.ne_of_gt hpos)).mpr h
  have hdigits := digits_bounds hpos h
  have hbits := ofNat_bits hpos h
  have hinfinity : infinityBits.toNat = 0x7FF0000000000000 := rfl
  refine decide_eq_true ?_
  rw [ofNat_magnitude hpos h, UInt64.lt_iff_toNat_lt]
  omega

theorem isNaN_ofNat : (ofNat n).isNaN = false := isNaN_of_isFinite (isFinite_ofNat hpos h)

theorem isZero_ofNat : (ofNat n).isZero = false := by
  have hdigits := digits_bounds hpos h
  have hbits := ofNat_bits hpos h
  refine decide_eq_false fun hzero => ?_
  rw [ofNat_magnitude hpos h] at hzero
  rw [hzero, UInt64.toNat_zero] at hbits
  omega

/-- The field of the exponent. -/
theorem ofNat_magnitude_shiftRight : ((ofNat n).magnitude >>> 52).toNat = n.log2 + 1023 := by
  have hdigits := digits_bounds hpos h
  have hbits := ofNat_bits hpos h
  have hshift : (52 : UInt64).toNat % 64 = 52 := rfl
  rw [ofNat_magnitude hpos h, UInt64.toNat_shiftRight, hshift, Nat.shiftRight_eq_div_pow, hbits]
  omega

theorem not_magnitude_ofNat_lt : ¬(ofNat n).magnitude < leastNormal.bits := by
  have hdigits := digits_bounds hpos h
  have hbits := ofNat_bits hpos h
  have hleast : leastNormal.bits.toNat = 2 ^ 52 := rfl
  rw [ofNat_magnitude hpos h, UInt64.lt_iff_toNat_lt]
  omega

theorem significand_ofNat : (ofNat n).significand = n * 2 ^ (52 - n.log2) := by
  have hdigits := digits_bounds hpos h
  have hbits := ofNat_bits hpos h
  have hmask : (0x000FFFFFFFFFFFFF : UInt64).toNat = 2 ^ 52 - 1 := rfl
  unfold significand
  dsimp only
  rw [if_neg (not_magnitude_ofNat_lt hpos h), UInt64.toNat_and, hmask,
    Nat.and_two_pow_sub_one_eq_mod, hbits]
  omega

theorem exponent_ofNat : (ofNat n).exponent = (n.log2 : Int) - 52 := by
  unfold exponent
  rw [if_neg (not_magnitude_ofNat_lt hpos h), ofNat_magnitude_shiftRight hpos h]
  omega

/-- The places behind the point are zeros. -/
theorem trunc_ofNat : (ofNat n).trunc = ofNat n := by
  have hlog : n.log2 < 53 := (Nat.log2_lt (Nat.ne_of_gt hpos)).mpr h
  have hfield := ofNat_magnitude_shiftRight hpos h
  have hlow : (1023 : UInt64).toNat = 1023 := rfl
  have hhigh : (1075 : UInt64).toNat = 1075 := rfl
  unfold trunc
  dsimp only
  split
  · rename_i hlt
    rw [UInt64.lt_iff_toNat_lt] at hlt
    omega
  · split
    · rfl
    · rename_i hle hlt
      rw [UInt64.le_iff_toNat_le] at hlt
      rw [UInt64.lt_iff_toNat_lt] at hle
      have hshift : ((ofNat n).magnitude >>> 52 - 1023).toNat = n.log2 := by
        rw [UInt64.toNat_sub_of_le _ _ (UInt64.le_iff_toNat_le.mpr (Nat.not_lt.mp hle)), hfield,
          hlow]
        omega
      have hfactor := two_pow_split (Nat.le_of_lt_succ hlog)
      refine congrArg Double.mk (and_not_of_and_eq_zero (UInt64.toNat_inj.mp ?_))
      have hfields : (n.log2 + 1022) * 4503599627370496
          = (n.log2 + 1022) * 2 ^ n.log2 * 2 ^ (52 - n.log2) := by
        rw [Nat.mul_assoc, Nat.mul_comm (2 ^ n.log2), ← hfactor]
        norm_num
      rw [UInt64.toNat_and, shiftedMask hshift (by omega), Nat.and_two_pow_sub_one_eq_mod,
        ofNat_bits hpos h, hfields, ← Nat.add_mul, Nat.mul_mod_left]
      rfl

theorem isWhole_ofNat : (ofNat n).isWhole = true := by
  rw [isWhole, isFinite_ofNat hpos h, trunc_ofNat hpos h, eq, isNaN_ofNat hpos h]
  simp

theorem zero_le_ofNat : zero.le (ofNat n) = true := by
  have hdigits := digits_bounds hpos h
  have hbits := ofNat_bits hpos h
  have hlt : zero.orderKey < (ofNat n).orderKey := by
    have hzero : zero.bits.toNat = 0 := rfl
    rw [UInt64.lt_iff_toNat_lt, orderKey_toNat (x := zero) rfl,
      orderKey_toNat (isNegative_ofNat hpos h), hzero]
    omega
  rw [le, lt, isNaN_ofNat hpos h, isZero_ofNat hpos h, decide_eq_true hlt, Bool.and_false]
  rfl

theorem toNatBelow_ofNat {limit : Nat} (hlimit : n ≤ limit) :
    (ofNat n).toNatBelow limit = n := by
  have hlog : n.log2 < 53 := (Nat.log2_lt (Nat.ne_of_gt hpos)).mpr h
  have hshift : (-((n.log2 : Int) - 52)).toNat = 52 - n.log2 := by omega
  unfold toNatBelow
  rw [isNaN_ofNat hpos h, isNegative_ofNat hpos h, isFinite_ofNat hpos h, exponent_ofNat hpos h,
    significand_ofNat hpos h, hshift]
  simp only [Bool.or_self, Bool.not_true, Bool.false_eq_true, if_false]
  split
  · have htop : n.log2 = 52 := by omega
    rw [htop]
    simpa using hlimit
  · rw [Nat.shiftRight_eq_div_pow, Nat.mul_div_cancel _ (Nat.two_pow_pos _),
      Nat.min_eq_right hlimit]

theorem toRat_ofNat_of_pos : (ofNat n).toRat = n := by
  have hlog : n.log2 < 53 := (Nat.log2_lt (Nat.ne_of_gt hpos)).mpr h
  have hplaces : ((52 - n.log2 : Nat) : ℤ) = 52 - (n.log2 : ℤ) := by omega
  rw [toRat, isNegative_ofNat hpos h, significand_ofNat hpos h, exponent_ofNat hpos h]
  rw [if_neg Bool.false_ne_true, one_mul, Nat.cast_mul, Nat.cast_pow, Nat.cast_ofNat, mul_assoc,
    ← zpow_natCast, ← zpow_add₀ two_ne_zero, hplaces, sub_add_sub_cancel, sub_self, zpow_zero,
    mul_one]

end Whole

section Count

variable {n : Nat} (h : n < 2 ^ 53)

include h

/-- The conversion is exact. -/
theorem toRat_ofNat : (ofNat n).toRat = n := by
  rcases Nat.eq_zero_or_pos n with rfl | hpos
  · rw [toRat, show (ofNat 0).significand = 0 from rfl]
    simp
  · exact toRat_ofNat_of_pos hpos h

end Count

/-! ### Doubles that are whole -/

/-- Larger numbers have larger bits. -/
theorem bits_ofNat_le {m n : Nat} (hpos : 0 < m) (hle : m ≤ n) (h : n < 2 ^ 53) :
    (ofNat m).bits.toNat ≤ (ofNat n).bits.toNat := by
  have hm := digits_bounds hpos (hle.trans_lt h)
  have hn := digits_bounds (hpos.trans_le hle) h
  have hlog : m.log2 ≤ n.log2 := (Nat.le_log2 (by omega)).mpr ((Nat.log2_self_le (by omega)).trans hle)
  rw [ofNat_bits hpos (hle.trans_lt h), ofNat_bits (hpos.trans_le hle) h]
  rcases hlog.eq_or_lt with heq | hlt
  · rw [heq]
    have := Nat.mul_le_mul_right (2 ^ (52 - n.log2)) hle
    omega
  · omega

theorem ofNat_lt_eq_false {m n : Nat} (hm : 0 < m) (hle : m ≤ n) (h : n < 2 ^ 53) :
    (ofNat n).lt (ofNat m) = false := by
  have hn := hm.trans_le hle
  have hm' := hle.trans_lt h
  have hbits := bits_ofNat_le hm hle h
  have hkeys : ¬(ofNat n).orderKey < (ofNat m).orderKey := by
    rw [UInt64.lt_iff_toNat_lt, orderKey_toNat (isNegative_ofNat hn h),
      orderKey_toNat (isNegative_ofNat hm hm')]
    omega
  rw [lt, decide_eq_false hkeys, Bool.and_false]

/-- From one on, numbers below `2 ^ 52` have their whole part in the upper digits of the
significand, and where they are whole, the digits below are zero. -/
theorem dvd_fraction_of_trunc {x : Double} {k f : Nat} (hneg : x.isNegative = false) (hk : k < 52)
    (hf : f < 2 ^ 52) (hbits : x.bits.toNat = (k + 1023) * 2 ^ 52 + f) (h : x.trunc = x) :
    2 ^ (52 - k) ∣ f := by
  have hfield : (x.magnitude >>> 52).toNat = k + 1023 := by
    have hshift : (52 : UInt64).toNat % 64 = 52 := rfl
    rw [magnitude_eq_bits hneg, UInt64.toNat_shiftRight, hshift, Nat.shiftRight_eq_div_pow]
    omega
  have hone : (1023 : UInt64).toNat = 1023 := rfl
  have htop : (1075 : UInt64).toNat = 1075 := rfl
  have hnotLow : ¬x.magnitude >>> 52 < 1023 := by
    rw [UInt64.lt_iff_toNat_lt]
    omega
  have hnotHigh : ¬(1075 : UInt64) ≤ x.magnitude >>> 52 := by
    rw [UInt64.le_iff_toNat_le]
    omega
  have hplaces : (x.magnitude >>> 52 - 1023).toNat = k := by
    rw [UInt64.toNat_sub_of_le _ _ (UInt64.le_iff_toNat_le.mpr (by omega)), hfield, hone]
    omega
  unfold trunc at h
  dsimp only at h
  rw [if_neg hnotLow, if_neg hnotHigh] at h
  have hand := congrArg UInt64.toNat (and_eq_zero_of_and_not (congrArg Double.bits h))
  have hfactor := two_pow_split hk.le
  rw [UInt64.toNat_and, shiftedMask hplaces hk.le, Nat.and_two_pow_sub_one_eq_mod, hbits, hfactor,
    ← Nat.mul_assoc, Nat.mul_right_comm, Nat.mul_add_mod_self_right] at hand
  exact Nat.dvd_of_mod_eq_zero hand

/-- The bits of the number whose digits are a one and, in `k` places, those of `q`. -/
theorem eq_ofNat_of_bits {x : Double} {k q : Nat} (hk : k < 52) (hq : q < 2 ^ k)
    (hbits : x.bits.toNat = (k + 1023) * 2 ^ 52 + 2 ^ (52 - k) * q) : x = ofNat (2 ^ k + q) := by
  have hfactor := two_pow_split hk.le
  have hlog : (2 ^ k + q).log2 = k :=
    (Nat.log2_eq_iff (by omega)).mpr ⟨Nat.le_add_right _ _, by rw [pow_succ]; omega⟩
  have hpow : 2 ^ k ≤ 2 ^ 51 := Nat.pow_le_pow_right (by omega) (by omega)
  have hdigits : (2 ^ k + q) * 2 ^ (52 - k) = 2 ^ 52 + 2 ^ (52 - k) * q := by
    rw [Nat.add_mul, Nat.mul_comm (2 ^ k), ← hfactor, Nat.mul_comm q]
  have heq : x.bits.toNat = (ofNat (2 ^ k + q)).bits.toNat := by
    rw [ofNat_bits (by omega) (by omega), hlog, hbits, hdigits]
    omega
  exact congrArg Double.mk (UInt64.toNat_inj.mp heq)

theorem eq_ofNat_of_trunc {x : Double} (hneg : x.isNegative = false)
    (hlow : 1023 * 2 ^ 52 ≤ x.bits.toNat) (hhigh : x.bits.toNat < 1075 * 2 ^ 52)
    (h : x.trunc = x) : ∃ n, 0 < n ∧ n < 2 ^ 53 ∧ x = ofNat n := by
  obtain ⟨k, f, hk, hf, hbits⟩ : ∃ k f, k < 52 ∧ f < 2 ^ 52
      ∧ x.bits.toNat = (k + 1023) * 2 ^ 52 + f :=
    ⟨x.bits.toNat / 2 ^ 52 - 1023, x.bits.toNat % 2 ^ 52, by omega, by omega, by omega⟩
  obtain ⟨q, rfl⟩ := dvd_fraction_of_trunc hneg hk hf hbits h
  have hfactor := two_pow_split hk.le
  have hq : q < 2 ^ k := by
    rw [hfactor] at hf
    exact Nat.lt_of_mul_lt_mul_left hf
  have hpow : 2 ^ k ≤ 2 ^ 51 := Nat.pow_le_pow_right (by omega) (by omega)
  exact ⟨2 ^ k + q, by omega, by omega, eq_ofNat_of_bits hk hq hbits⟩

/-- What is not below one is not negative. -/
theorem le_bits_of_lt_one_eq_false {x : Double} (hn : x.isNaN = false) (h : x.lt one = false) :
    x.isNegative = false ∧ 1023 * 2 ^ 52 ≤ x.bits.toNat := by
  have hone : one.bits.toNat = 1023 * 2 ^ 52 := rfl
  have hkeyOne : one.orderKey.toNat = 2 ^ 63 + one.bits.toNat := orderKey_toNat rfl
  have hfalse : one.isNaN = false ∧ one.isZero = false := ⟨rfl, rfl⟩
  unfold lt at h
  rw [hn, hfalse.1, hfalse.2, Bool.and_false] at h
  have hkeys := of_decide_eq_false h
  rw [UInt64.lt_iff_toNat_lt] at hkeys
  cases hneg : x.isNegative with
  | true =>
      have hbits := two_pow_le_bits hneg
      rw [orderKey_toNat_of_isNegative hneg] at hkeys
      omega
  | false =>
      rw [orderKey_toNat hneg] at hkeys
      exact ⟨rfl, by omega⟩

theorem ofNat_inj {m n : Nat} (hm : m < 2 ^ 53) (hn : n < 2 ^ 53) (h : ofNat m = ofNat n) :
    m = n := by
  have hrat := congrArg toRat h
  rw [toRat_ofNat hm, toRat_ofNat hn] at hrat
  exact Nat.cast_injective hrat

theorem eq_of_eq_true {x y : Double} (h : x.eq y = true) (hy : y.isZero = false) : x = y := by
  unfold Double.eq at h
  rw [hy, Bool.and_false, Bool.or_false] at h
  exact congrArg Double.mk (beq_iff_eq.mp (Bool.and_eq_true_iff.mp h).2)

/-- Whole numbers between one and a limit. -/
theorem exists_ofNat {x : Double} {limit : Nat} (hwhole : x.isWhole = true)
    (hone : x.lt one = false) (hlimit : (ofNat limit).lt x = false) (hpos : 0 < limit)
    (h : limit < 2 ^ 52) : ∃ n, 0 < n ∧ n ≤ limit ∧ x = ofNat n := by
  obtain ⟨hfinite, heq⟩ := Bool.and_eq_true_iff.mp hwhole
  have hn := isNaN_of_isFinite hfinite
  obtain ⟨hneg, hlow⟩ := le_bits_of_lt_one_eq_false hn hone
  have hlimit' : limit < 2 ^ 53 := by omega
  have hle : x.bits.toNat ≤ (ofNat limit).bits.toNat :=
    bits_le_of_lt_eq_false hneg (isNegative_ofNat hpos hlimit') hn (isNaN_ofNat hpos hlimit')
      (isZero_ofNat hpos hlimit') hlimit
  have hhigh : x.bits.toNat < 1075 * 2 ^ 52 := by
    have hlog : limit.log2 < 52 := (Nat.log2_lt (by omega)).mpr h
    have hdigits := digits_bounds hpos hlimit'
    rw [ofNat_bits hpos hlimit'] at hle
    omega
  have hnonzero : x.isZero = false := by
    refine decide_eq_false fun hzero => ?_
    rw [magnitude_eq_bits hneg] at hzero
    rw [hzero, UInt64.toNat_zero] at hlow
    omega
  obtain ⟨n, hnpos, hnbound, rfl⟩ :=
    eq_ofNat_of_trunc hneg hlow hhigh (eq_of_eq_true heq hnonzero)
  refine ⟨n, hnpos, ?_, rfl⟩
  by_contra hlt
  have hbits := bits_ofNat_le hpos (not_le.mp hlt).le hnbound
  exact hlt (ofNat_inj hnbound hlimit' (congrArg Double.mk
    (UInt64.toNat_inj.mp (Nat.le_antisymm hle hbits)))).le

end Double

/-- A number is read back as the count that it was made from. -/
theorem Value.count?_ofNat {n : Nat} (h : n < 2 ^ 53) : (Value.ofNat n).count? = some n := by
  rcases Nat.eq_zero_or_pos n with rfl | hpos
  · rfl
  · have hzero : Double.zero.isZero = true := by decide
    have hreal : (Value.ofNat n).real? = some (Double.ofNat n) := by
      change ((some (Complex.ofNat n)).filter Complex.isReal).map (·.re) = _
      rw [Option.filter_some, show (Complex.ofNat n).isReal = true from hzero, if_pos rfl]
      rfl
    rw [count?, hreal, Option.filter_some, Double.zero_le_ofNat hpos h,
      Double.isWhole_ofNat hpos h, Bool.and_self, if_pos rfl, Option.map_some, Double.toCount,
      Double.toNatBelow_ofNat hpos h (by omega)]

end MatrixScript
