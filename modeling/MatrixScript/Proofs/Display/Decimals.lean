import MatrixScript.Proofs.Sets.Elements
import MatrixScript.Proofs.Embedded.Lexical
import MatrixScript.Proofs.Numerals.Scanning

/-!
# Written numbers

A finite number is written with digits, with a fraction if there is one, and with a sign if it is
negative. The scanner for numbers takes the digits as a whole, up to whatever is neither a digit nor
something that could go on with a number.
-/

namespace MatrixScript

/-- Digits with a fraction or without. -/
inductive Numeral : List Char → Prop where
  | whole {ds : List Char} (hds : Digits ds) : Numeral ds
  | fraction {ds fs : List Char} (hds : Digits ds) (hfs : Digits fs) : Numeral (ds ++ '.' :: fs)

/-- What may stand behind an entry of a matrix, or nothing. It does not go on with a number. -/
def EndsEntry (d : List Char) : Prop := ∀ c ∈ d.head?, c ∈ [',', ';', ']']

variable {cs ds fs d : List Char}

theorem Digits.append (h : Digits ds) (h' : ∀ c ∈ fs, c.isDigit = true) : Digits (ds ++ fs) where
  ne_nil := List.append_ne_nil_of_left_ne_nil h.ne_nil fs
  digit c hc := (List.mem_append.mp hc).elim (h.digit c) (h' c)

theorem digits_toDigits (n : Nat) : Digits (Nat.toDigits 10 n) where
  ne_nil := Nat.toDigits_ne_nil
  digit _ hc := Nat.isDigit_of_mem_toDigits (by decide) (Nat.le_refl 10) hc

theorem digits_zeros (n : Nat) : ∀ c ∈ List.replicate n '0', c.isDigit = true := by
  intro c hc
  rw [List.eq_of_mem_replicate hc]
  rfl

/-- Digits without an exponent are what a positional decimal is made of. -/
theorem numeral_positional (digits : Nat) (unit : Int) :
    Numeral (Decimal.positional digits unit) := by
  have hds := digits_toDigits digits
  unfold Decimal.positional
  by_cases hunit : 0 ≤ unit
  · rw [if_pos hunit]
    exact .whole (hds.append (digits_zeros _))
  · rw [if_neg hunit]
    by_cases hplaces : (-unit).toNat < (Nat.toDigits 10 digits).length
    · rw [if_pos hplaces]
      apply Numeral.fraction
      · refine ⟨?_, fun c hc => hds.digit c (List.mem_of_mem_take hc)⟩
        apply List.ne_nil_of_length_pos
        rw [List.length_take]
        omega
      · refine ⟨?_, fun c hc => hds.digit c (List.mem_of_mem_drop hc)⟩
        apply List.ne_nil_of_length_pos
        rw [List.length_drop]
        omega
    · rw [if_neg hplaces]
      have hzero : Digits ['0'] := ⟨List.cons_ne_nil _ _, by simp⟩
      refine .fraction hzero ⟨List.append_ne_nil_of_right_ne_nil _ hds.ne_nil, fun c hc => ?_⟩
      exact (List.mem_append.mp hc).elim (digits_zeros _ c) (hds.digit c)

/-! ### Texts of numbers -/

namespace Double

variable {x : Double}

theorem bits_abs (x : Double) : x.abs.bits = x.magnitude := rfl

theorem magnitude_abs (x : Double) : x.abs.magnitude = x.magnitude := by
  rw [magnitude, bits_abs, magnitude, UInt64.and_assoc, UInt64.and_self]

theorem isFinite_abs (x : Double) : x.abs.isFinite = x.isFinite := by
  rw [isFinite, isFinite, magnitude_abs]

theorem isInfinite_of_isFinite (h : x.isFinite = true) : x.isInfinite = false := by
  have hlt := UInt64.lt_iff_toNat_lt.mp (of_decide_eq_true h)
  refine decide_eq_false fun heq => ?_
  rw [heq] at hlt
  exact absurd hlt (Nat.lt_irrefl _)

theorem isNegative_abs (x : Double) : x.abs.isNegative = false := by
  have hlt := magnitude_toNat_lt x
  refine decide_eq_false fun hle => ?_
  rw [bits_abs, UInt64.le_iff_toNat_le] at hle
  have hsign : signBit.toNat = 2 ^ 63 := rfl
  omega

/-- A number and its magnitude have the same significand and the same exponent, so the search for
the shortest decimal is the same. -/
theorem shortest_abs (x : Double) : Decimal.shortest x.abs = Decimal.shortest x := by
  have hsignificand : x.abs.significand = x.significand := by
    rw [significand, significand, magnitude_abs, bits_abs, magnitude, UInt64.and_assoc]
    rfl
  have hexponent : x.abs.exponent = x.exponent := by
    rw [exponent, exponent, magnitude_abs]
  rw [Decimal.shortest, Decimal.shortest, Decimal.Interval.ofDouble, Decimal.Interval.ofDouble,
    hsignificand, hexponent]

/-- A finite number is its sign, unless it is zero, in front of its magnitude. -/
theorem text_eq (h : x.isFinite = true) :
    x.text.toList = (if x.isNegative && !x.isZero then ['-'] else []) ++ x.abs.text.toList := by
  have habs : x.abs.isFinite = true := by rwa [isFinite_abs]
  have hzero : x.abs.isZero = x.isZero := by rw [isZero, isZero, magnitude_abs]
  rw [text, text, isNaN_of_isFinite h, isInfinite_of_isFinite h, isNaN_of_isFinite habs,
    isInfinite_of_isFinite habs, hzero, isNegative_abs, shortest_abs]
  cases x.isZero <;> cases x.isNegative <;> simp

theorem numeral_text_abs (h : x.isFinite = true) : Numeral x.abs.text.toList := by
  have habs : x.abs.isFinite = true := by rwa [isFinite_abs]
  rw [text, isNaN_of_isFinite habs, isInfinite_of_isFinite habs, isNegative_abs]
  by_cases hzero : x.abs.isZero = true
  · have hdigit : Digits ['0'] := ⟨List.cons_ne_nil _ _, by simp⟩
    simpa [hzero] using Numeral.whole hdigit
  · simpa [hzero] using numeral_positional _ _

/-! ### Signs -/

theorem abs_of_not_negative (h : x.isNegative = false) : x.abs = x :=
  congrArg Double.mk (magnitude_eq_bits h)

/-- Turning the sign of the magnitude gives a negative number back. -/
theorem neg_abs (h : x.isNegative = true) : -x.abs = x := by
  have hlt := magnitude_toNat_lt x
  have hsign : signBit.toNat = 2 ^ 63 := rfl
  have hbits := bits_toNat x
  have hor := Nat.two_pow_add_eq_or_of_lt hlt 1
  rw [Nat.mul_one] at hor
  rw [if_pos h, hor] at hbits
  apply congrArg Double.mk
  apply UInt64.toNat_inj.mp
  rw [bits_abs, UInt64.toNat_xor, hsign, hbits]
  apply Nat.eq_of_testBit_eq
  intro i
  rw [Nat.testBit_xor, Nat.testBit_or, Nat.testBit_two_pow]
  by_cases hi : 63 = i
  · subst hi
    rw [Nat.testBit_lt_two_pow hlt]
    rfl
  · simp [hi]

theorem isNaN_of_isZero (h : x.isZero = true) : x.isNaN = false := by
  have hzero := isZero_iff.mp h
  rw [Bool.eq_false_iff, ne_eq, isNaN_iff, hzero]
  omega

theorem eq_of_isZero {y : Double} (hx : x.isZero = true) (hy : y.isZero = true) :
    x.eq y = true := by
  rw [eq, isNaN_of_isZero hx, isNaN_of_isZero hy, hx, hy]
  simp

theorem eq_self (h : x.isNaN = false) : x.eq x = true := by simp [eq, h]

end Double

/-! ### Scanning -/

theorem EndsEntry.not_digit (h : EndsEntry d) : ∀ c ∈ d.head?, c.isDigit = false := by
  have hall : ∀ c ∈ [',', ';', ']'], c.isDigit = false := by decide
  exact fun c hc => hall c (h c hc)

theorem EndsEntry.fractionLength (h : EndsEntry d) : Form.fractionLength d = 0 := by
  cases d with
  | nil => rfl
  | cons c d =>
      have hc := h c rfl
      simp only [List.mem_cons, List.not_mem_nil, or_false] at hc
      rcases hc with rfl | rfl | rfl <;> rfl

theorem EndsEntry.exponentLength (h : EndsEntry d) : Form.exponentLength d = 0 := by
  cases d with
  | nil => rfl
  | cons c d =>
      have hc := h c rfl
      simp only [List.mem_cons, List.not_mem_nil, or_false] at hc
      rcases hc with rfl | rfl | rfl <;> simp [Form.exponentLength]

/-- The scanner takes all of a number that is written so. -/
theorem numberLength_append (h : Numeral cs) (hd : EndsEntry d) :
    Form.numberLength (cs ++ d) = cs.length := by
  cases h with
  | @whole _ hds =>
      simp [Form.numberLength, Form.digitRun_append hds.digit hd.not_digit, hd.fractionLength,
        hd.exponentLength]
  | @fraction ds fs hds hfs =>
      have hpoint : ∀ c ∈ ('.' :: (fs ++ d)).head?, c.isDigit = false := by simp
      have hwhole : Form.digitRun (ds ++ '.' :: (fs ++ d)) = ds.length :=
        Form.digitRun_append hds.digit hpoint
      have hrun := Form.digitRun_append hfs.digit hd.not_digit
      have hpos : fs.length ≠ 0 := by simpa using hfs.ne_nil
      have hfraction : Form.fractionLength ('.' :: (fs ++ d)) = fs.length + 1 := by
        rw [Form.fractionLength, hrun, if_neg hpos]
      simp [Form.numberLength, hwhole, hfraction, hd.exponentLength]

/-- A number starts with a digit. -/
theorem Numeral.head (h : Numeral cs) : ∃ c ds, cs = c :: ds ∧ c.isDigit = true := by
  cases h with
  | whole hds =>
      obtain ⟨c, rest, rfl⟩ := List.exists_cons_of_ne_nil hds.ne_nil
      exact ⟨c, rest, rfl, hds.digit c List.mem_cons_self⟩
  | fraction hds _ =>
      obtain ⟨c, rest, rfl⟩ := List.exists_cons_of_ne_nil hds.ne_nil
      exact ⟨c, _, rfl, hds.digit c List.mem_cons_self⟩

end MatrixScript
