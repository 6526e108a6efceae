import MatrixScript.Proofs.Values.Numbers
import MatrixScript.Proofs.Values.Sets

/-!
# Elements that count as one

Numbers that are equal count as one, which the two zeros are, and so do all NaNs. What comes first
in a set is what is less, and every number comes before the NaNs. Representatives are compared by
their bits, for equality and for order alike, and that is the same.
-/

namespace MatrixScript

namespace Double

/-- Whether two doubles count as one: equal numbers do, and so do NaNs. -/
def CountsAs (x y : Double) : Prop := x.eq y = true ∨ x.isNaN = true ∧ y.isNaN = true

/-- Whether a double comes before another one: lesser numbers do, and numbers before NaNs. -/
def Precedes (x y : Double) : Prop := x.lt y = true ∨ x.isNaN = false ∧ y.isNaN = true

end Double

namespace Element

/-- Whether two elements count as one. -/
inductive CountsAs : Element → Element → Prop where
  | number {z w : Complex} (hre : z.re.CountsAs w.re) (him : z.im.CountsAs w.im) :
      CountsAs (.number z) (.number w)
  | text (s : String) : CountsAs (.text s) (.text s)

/-- Whether an element comes before another one: numbers do before texts, and among themselves by
their real parts, then by their imaginary parts. -/
inductive Precedes : Element → Element → Prop where
  | re {z w : Complex} (h : z.re.Precedes w.re) : Precedes (.number z) (.number w)
  | im {z w : Complex} (hre : z.re.CountsAs w.re) (h : z.im.Precedes w.im) :
      Precedes (.number z) (.number w)
  | numberText (z : Complex) (s : String) : Precedes (.number z) (.text s)
  | text {s t : String} (h : s < t) : Precedes (.text s) (.text t)

end Element

namespace Double

variable {x y : Double}

/-! ### Doubles by their signs and magnitudes -/

theorem isNaN_iff : x.isNaN = true ↔ 0x7FF0000000000000 < x.magnitude.toNat := by
  have hinfinity : infinityBits.toNat = 0x7FF0000000000000 := rfl
  rw [isNaN, decide_eq_true_iff, UInt64.lt_iff_toNat_lt, hinfinity]

theorem isZero_iff : x.isZero = true ↔ x.magnitude.toNat = 0 := by
  rw [isZero, decide_eq_true_iff, ← UInt64.toNat_inj]
  rfl

theorem bits_toNat (x : Double) :
    x.bits.toNat = (if x.isNegative then 2 ^ 63 else 0) + x.magnitude.toNat := by
  have hsize := x.bits.toNat_lt
  have hmagnitude := x.magnitude_toNat
  cases hsign : x.isNegative with
  | true =>
      have hle := two_pow_le_bits hsign
      rw [if_pos rfl]
      omega
  | false =>
      have hlt := toNat_bits_lt hsign
      rw [if_neg Bool.false_ne_true]
      omega

theorem magnitude_toNat_lt (x : Double) : x.magnitude.toNat < 2 ^ 63 := by
  rw [magnitude_toNat]
  exact Nat.mod_lt _ (by decide)

theorem orderKey_toNat_eq (x : Double) : x.orderKey.toNat
    = if x.isNegative then 2 ^ 63 - 1 - x.magnitude.toNat else 2 ^ 63 + x.magnitude.toNat := by
  have hbits := x.bits_toNat
  cases hsign : x.isNegative with
  | true =>
      rw [hsign, if_pos rfl] at hbits
      rw [orderKey_toNat_of_isNegative hsign, if_pos rfl]
      omega
  | false =>
      rw [hsign, if_neg Bool.false_ne_true] at hbits
      rw [orderKey_toNat hsign, if_neg Bool.false_ne_true]
      omega

theorem eq_iff : x.eq y = true ↔ ¬x.isNaN = true ∧ ¬y.isNaN = true
    ∧ (x.bits.toNat = y.bits.toNat ∨ x.isZero = true ∧ y.isZero = true) := by
  rw [eq, Bool.and_eq_true, Bool.and_eq_true, Bool.not_eq_true', Bool.not_eq_true',
    Bool.or_eq_true, Bool.and_eq_true, beq_iff_eq, UInt64.toNat_inj, and_assoc, Bool.not_eq_true,
    Bool.not_eq_true]

theorem lt_iff : x.lt y = true ↔ ¬x.isNaN = true ∧ ¬y.isNaN = true
    ∧ ¬(x.isZero = true ∧ y.isZero = true) ∧ x.orderKey.toNat < y.orderKey.toNat := by
  rw [lt, Bool.and_eq_true, Bool.and_eq_true, Bool.and_eq_true, Bool.not_eq_true',
    Bool.not_eq_true', Bool.not_eq_true', decide_eq_true_iff, UInt64.lt_iff_toNat_lt,
    ← Bool.and_eq_true, Bool.not_eq_true, Bool.not_eq_true, Bool.not_eq_true, and_assoc, and_assoc]

/-- The place of the representative in the total order. -/
theorem orderKey_representative (x : Double) : x.representative.orderKey.toNat
    = if 0x7FF0000000000000 < x.magnitude.toNat then 2 ^ 63 + 0x7FF8000000000000
      else if x.magnitude.toNat = 0 then 2 ^ 63 else x.orderKey.toNat := by
  unfold representative
  by_cases hzero : x.isZero = true
  · have hnone := isZero_iff.mp hzero
    rw [if_pos hzero, if_neg (by omega), if_pos hnone]
    rfl
  · have hsome := mt isZero_iff.mpr hzero
    by_cases hnan : x.isNaN = true
    · rw [if_neg hzero, if_pos hnan, if_pos (isNaN_iff.mp hnan)]
      rfl
    · rw [if_neg hzero, if_neg hnan, if_neg (mt isNaN_iff.mpr hnan), if_neg hsome]

theorem representative_eq_iff : x.representative = y.representative ↔ x.CountsAs y := by
  have hkeys : x.representative = y.representative
      ↔ x.representative.orderKey.toNat = y.representative.orderKey.toNat :=
    ⟨fun h => by rw [h], fun h => orderKey_inj (UInt64.toNat_inj.mp h)⟩
  have hx := x.magnitude_toNat_lt
  have hy := y.magnitude_toNat_lt
  rw [hkeys, orderKey_representative, orderKey_representative, CountsAs, eq_iff, isNaN_iff,
    isNaN_iff, isZero_iff, isZero_iff, orderKey_toNat_eq, orderKey_toNat_eq, x.bits_toNat,
    y.bits_toNat]
  generalize x.magnitude.toNat = a at hx ⊢
  generalize y.magnitude.toNat = b at hy ⊢
  -- the signs and the three ranges of each magnitude leave linear inequalities
  cases x.isNegative <;> cases y.isNegative <;>
    simp only [if_true, Bool.false_eq_true, if_false] <;> split_ifs <;> omega

theorem representative_lt_iff :
    x.representative.orderKey.toNat < y.representative.orderKey.toNat ↔ x.Precedes y := by
  have hx := x.magnitude_toNat_lt
  have hy := y.magnitude_toNat_lt
  rw [orderKey_representative, orderKey_representative, Precedes, lt_iff, ← Bool.not_eq_true,
    isNaN_iff, isNaN_iff, isZero_iff, isZero_iff, orderKey_toNat_eq, orderKey_toNat_eq]
  generalize x.magnitude.toNat = a at hx ⊢
  generalize y.magnitude.toNat = b at hy ⊢
  -- the signs and the three ranges of each magnitude leave linear inequalities
  cases x.isNegative <;> cases y.isNegative <;>
    simp only [if_true, Bool.false_eq_true, if_false] <;> split_ifs <;> omega

end Double

namespace Element

variable {x y z : Element}

/-! ### Comparing elements -/

theorem same_iff : x.same y = true ↔ x.CountsAs y := by
  cases x with
  | number z =>
      cases y with
      | number w =>
          have hparts : representative z = representative w
              ↔ z.re.CountsAs w.re ∧ z.im.CountsAs w.im := by
            rw [representative, representative, Complex.mk.injEq, Double.representative_eq_iff,
              Double.representative_eq_iff]
          rw [same, beq_iff_eq, hparts]
          constructor
          · rintro ⟨hre, him⟩
            exact .number hre him
          · intro h
            cases h with
            | number hre him => exact ⟨hre, him⟩
      | text t => exact iff_of_false Bool.false_ne_true fun h => by cases h
  | text s =>
      cases y with
      | number w => exact iff_of_false Bool.false_ne_true fun h => by cases h
      | text t =>
          rw [same, beq_iff_eq]
          constructor
          · intro h
            subst h
            exact .text s
          · intro h
            cases h with
            | text => rfl

theorem compare_lt_iff : x.compare y = .lt ↔ x.Precedes y := by
  cases x with
  | number z =>
      cases y with
      | number w =>
          have hre : (representative z).re.orderKey.toNat < (representative w).re.orderKey.toNat
              ↔ z.re.Precedes w.re := Double.representative_lt_iff
          have him : (representative z).im.orderKey.toNat < (representative w).im.orderKey.toNat
              ↔ z.im.Precedes w.im := Double.representative_lt_iff
          have hsame : (representative z).re.orderKey = (representative w).re.orderKey
              ↔ z.re.CountsAs w.re :=
            ⟨fun h => Double.representative_eq_iff.mp (Double.orderKey_inj h),
              fun h => congrArg Double.orderKey (Double.representative_eq_iff.mpr h)⟩
          rw [compare, Complex.totalCompare, Ordering.then_eq_lt, Double.totalCompare_eq_lt,
            Double.totalCompare_eq_eq, Double.totalCompare_eq_lt, UInt64.lt_iff_toNat_lt,
            UInt64.lt_iff_toNat_lt, hre, hsame, him]
          constructor
          · rintro (hlt | ⟨heq, hlt⟩)
            · exact .re hlt
            · exact .im heq hlt
          · intro h
            cases h with
            | re hlt => exact .inl hlt
            | im heq hlt => exact .inr ⟨heq, hlt⟩
      | text t => exact ⟨fun _ => .numberText z t, fun _ => rfl⟩
  | text s =>
      cases y with
      | number w => exact iff_of_false (fun h => by cases h) fun h => by cases h
      | text t =>
          rw [compare, compareOfLessAndEq_eq_lt]
          constructor
          · exact .text
          · intro h
            cases h with
            | text h => exact h

/-- Elements that count as one have one key, and no others do. -/
theorem key_eq_iff : x.key = y.key ↔ x.CountsAs y := by
  rw [← same_iff]
  have hbits {v w : Double} : v.bits = w.bits ↔ v = w :=
    ⟨fun h => by cases v; cases w; cases h; rfl, congrArg Double.bits⟩
  cases x <;> cases y <;> simp [key, same, hbits, representative]

/-! ### One element for all that count as it -/

/-- The element with the representatives of its parts. -/
def folded : Element → Element
  | number z => number (representative z)
  | text s => text s

theorem folded_eq_iff : x.folded = y.folded ↔ x.CountsAs y := by
  rw [← same_iff]
  cases x <;> cases y <;> simp [folded, same]

theorem CountsAs.symm (h : x.CountsAs y) : y.CountsAs x :=
  folded_eq_iff.mp (folded_eq_iff.mpr h).symm

theorem CountsAs.trans (h : x.CountsAs y) (h' : y.CountsAs z) : x.CountsAs z :=
  folded_eq_iff.mp ((folded_eq_iff.mpr h).trans (folded_eq_iff.mpr h'))

end Element

end MatrixScript
