import MatrixScript.Grammar.Forms
import Mathlib.Data.List.Infix
import Mathlib.Data.List.TakeWhile
import Mathlib.Tactic.SplitIfs

/-!
# Scanning numbers

A number is made of a whole part, a fraction and an exponent. The scanner takes the digits there
are, then a point only if a digit follows, then a letter only if digits follow it, with a sign or
without. What it has taken is a number, and no longer piece of the text is one: each part starts
with a character that cannot go on with the part in front of it, so a number leaves no choice of
where its parts end.
-/

namespace MatrixScript

/-- A run of digits that is not empty. -/
structure Digits (cs : List Char) : Prop where
  ne_nil : cs ≠ []
  digit : ∀ c ∈ cs, c.isDigit = true

/-- What numbers are made of. -/
def isFigure (c : Char) : Bool := c.isDigit || ['.', 'e', 'E', '+', '-'].contains c

namespace Decimal

/-- A point with digits behind it, or nothing. -/
inductive Fraction : List Char → Prop
  | absent : Fraction []
  | point {ds : List Char} (hds : Digits ds) : Fraction ('.' :: ds)

/-- A letter with digits behind it and perhaps a sign in front of these, or nothing. -/
inductive Exponent : List Char → Prop
  | absent : Exponent []
  | power {letter : Char} {sign ds : List Char} (hletter : letter = 'e' ∨ letter = 'E')
      (hsign : sign ∈ [[], ['+'], ['-']]) (hds : Digits ds) : Exponent (letter :: (sign ++ ds))

/-- A number as it is written in a program. In front of its exponent there is a digit. -/
inductive Literal : List Char → Prop
  | intro {whole fraction exponent : List Char} (hwhole : ∀ c ∈ whole, c.isDigit = true)
      (hfraction : Fraction fraction) (hsome : whole ≠ [] ∨ fraction ≠ [])
      (hexponent : Exponent exponent) : Literal (whole ++ fraction ++ exponent)

/-- Digits with a point behind them, between them or in front of them, or without one. -/
inductive Mantissa : List Char → Prop
  | whole {ds : List Char} (hds : Digits ds) : Mantissa ds
  | behind {ds fs : List Char} (hds : Digits ds) (hfs : ∀ c ∈ fs, c.isDigit = true) :
      Mantissa (ds ++ '.' :: fs)
  | inFront {ds fs : List Char} (hds : ∀ c ∈ ds, c.isDigit = true) (hfs : Digits fs) :
      Mantissa (ds ++ '.' :: fs)

/-- The texts that are read as doubles: signed numbers, and in letters of either case the names of
what is not finite. -/
inductive DoubleText : List Char → Prop
  | number {sign mantissa exponent : List Char} (hsign : sign ∈ [[], ['+'], ['-']])
      (hmantissa : Mantissa mantissa) (hexponent : Exponent exponent) :
      DoubleText (sign ++ (mantissa ++ exponent))
  | name {sign letters : List Char} (hsign : sign ∈ [[], ['+'], ['-']])
      (hletters : letters.map Char.toLower
        ∈ [['i', 'n', 'f'], ['i', 'n', 'f', 'i', 'n', 'i', 't', 'y'], ['n', 'a', 'n']]) :
      DoubleText (sign ++ letters)

end Decimal

open Decimal

/-! ### Figures -/

theorem isFigure_of_isDigit {c : Char} (hc : c.isDigit = true) : isFigure c = true := by
  rw [isFigure, hc, Bool.true_or]

theorem ascii_of_isFigure {c : Char} (hc : isFigure c = true) : c.val ≤ 0x7f := by
  rcases Bool.or_eq_true_iff.mp hc with hdigit | hmark
  · have hbounds : 48 ≤ c.val.toNat ∧ c.val.toNat ≤ 57 := by
      simpa [Char.isDigit, UInt32.le_iff_toNat_le] using hdigit
    rw [UInt32.le_iff_toNat_le]
    exact Nat.le_trans hbounds.2 (by decide)
  · have hall : ∀ c ∈ ['.', 'e', 'E', '+', '-'], c.val ≤ 0x7f := by decide
    exact hall c (List.elem_iff.mp hmark)

theorem utf8Size_of_isFigure {c : Char} (hc : isFigure c = true) : c.utf8Size = 1 :=
  if_pos (ascii_of_isFigure hc)

theorem byteCount_of_isFigure {cs : List Char} (h : ∀ c ∈ cs, isFigure c = true) :
    byteCount cs = cs.length := by
  induction cs with
  | nil => rfl
  | cons c cs ih =>
      obtain ⟨hc, hcs⟩ := List.forall_mem_cons.mp h
      rw [byteCount_cons, utf8Size_of_isFigure hc, ih hcs, List.length_cons, Nat.add_comm]

theorem Digits.figures {ds : List Char} (h : Digits ds) : ∀ c ∈ ds, isFigure c = true :=
  fun c hc => isFigure_of_isDigit (h.digit c hc)

theorem Decimal.Fraction.figures {cs : List Char} (h : Fraction cs) :
    ∀ c ∈ cs, isFigure c = true := by
  cases h with
  | absent => exact nofun
  | point hds => exact List.forall_mem_cons.mpr ⟨rfl, hds.figures⟩

theorem Decimal.Exponent.figures {cs : List Char} (h : Exponent cs) :
    ∀ c ∈ cs, isFigure c = true := by
  cases h with
  | absent => exact nofun
  | power hletter hsign hds =>
      have hsigns : ∀ sign ∈ [[], ['+'], ['-']], ∀ c ∈ sign, isFigure c = true := by decide
      refine List.forall_mem_cons.mpr ⟨?_, List.forall_mem_append.mpr ⟨hsigns _ hsign, hds.figures⟩⟩
      rcases hletter with rfl | rfl <;> rfl

namespace Form

variable {cs d ds : List Char}

/-! ### Nothing is taken beyond the end -/

theorem digitRun_le (cs : List Char) : digitRun cs ≤ cs.length :=
  (List.takeWhile_prefix _).length_le

theorem fractionLength_le (cs : List Char) : fractionLength cs ≤ cs.length := by
  have hrun := digitRun_le cs.tail
  unfold fractionLength
  split
  · split_ifs <;> simp at hrun ⊢
    omega
  · exact Nat.zero_le _

theorem exponentLength_le (cs : List Char) : exponentLength cs ≤ cs.length := by
  cases cs with
  | nil => exact Nat.le_refl _
  | cons c cs =>
      have hrun := digitRun_le (cs.drop (if cs.head? = some '+' || cs.head? = some '-' then 1 else 0))
      simp only [exponentLength, List.length_cons, List.length_drop] at hrun ⊢
      split_ifs at hrun ⊢ <;> cases cs <;> simp at * <;> omega

theorem numberLength_le (cs : List Char) : numberLength cs ≤ cs.length := by
  have hrun := digitRun_le cs
  have hfraction := fractionLength_le (cs.drop (digitRun cs))
  have hexponent :=
    exponentLength_le (cs.drop (digitRun cs + fractionLength (cs.drop (digitRun cs))))
  rw [List.length_drop] at hfraction hexponent
  simp only [numberLength]
  omega

/-! ### What is taken is a number -/

theorem digit_take (cs : List Char) : ∀ c ∈ cs.take (digitRun cs), c.isDigit = true := by
  rw [digitRun, ← List.prefix_iff_eq_take.mp (List.takeWhile_prefix Char.isDigit)]
  exact fun c hc => List.mem_takeWhile_imp hc

theorem digits_take (h : digitRun cs ≠ 0) : Digits (cs.take (digitRun cs)) where
  ne_nil hnil := by
    have hlength := congrArg List.length hnil
    rw [List.length_take, List.length_nil] at hlength
    have hle := digitRun_le cs
    omega
  digit := digit_take cs

theorem fraction_take (cs : List Char) : Fraction (cs.take (fractionLength cs)) := by
  unfold fractionLength
  split
  · split
    · exact .absent
    · rename_i hrun
      exact .point (digits_take hrun)
  · exact .absent

theorem sign_take (cs : List Char) :
    cs.take (if cs.head? = some '+' || cs.head? = some '-' then 1 else 0)
      ∈ [[], ['+'], ['-']] := by
  cases cs with
  | nil => simp
  | cons c cs =>
      by_cases hplus : c = '+'
      · simp [hplus]
      · by_cases hminus : c = '-' <;> simp [hplus, hminus]

theorem exponent_take (cs : List Char) : Exponent (cs.take (exponentLength cs)) := by
  cases cs with
  | nil => exact .absent
  | cons c cs =>
      have hsign := sign_take cs
      simp only [exponentLength]
      generalize (if cs.head? = some '+' || cs.head? = some '-' then 1 else 0) = sign at hsign ⊢
      split
      · rename_i h
        obtain ⟨hletter, hrun⟩ := Bool.and_eq_true_iff.mp h
        rw [Nat.add_assoc, Nat.add_comm 1, List.take_succ_cons, List.take_add]
        exact .power (by simpa using hletter) hsign (digits_take (by simpa using hrun))
      · exact .absent

/-- A text that is accepted starts with a digit, or with a point and a digit. -/
theorem some_of_accepts {flags : Flags} (h : number.accepts cs flags = true) :
    digitRun cs ≠ 0 ∨ digitRun cs = 0 ∧ fractionLength cs ≠ 0 := by
  have hrun {c : Char} {cs : List Char} (hc : c.isDigit = true) : digitRun (c :: cs) ≠ 0 := by
    rw [digitRun, List.takeWhile_cons_of_pos hc, List.length_cons]
    exact Nat.succ_ne_zero _
  unfold number at h
  dsimp only at h
  split at h
  · rename_i c cs
    have hnone : digitRun ('.' :: c :: cs) = 0 := by
      rw [digitRun, List.takeWhile_cons_of_neg (by decide)]
      rfl
    refine .inr ⟨hnone, ?_⟩
    rw [fractionLength, if_neg (hrun h)]
    exact Nat.succ_ne_zero _
  · exact .inl (hrun h)
  · cases h

theorem literal_take {flags : Flags} (h : number.accepts cs flags = true) :
    Literal (cs.take (numberLength cs)) := by
  rw [numberLength, List.take_add, List.take_add]
  refine .intro (digit_take cs) (fraction_take _) ?_ (exponent_take _)
  rcases some_of_accepts h with hrun | ⟨hrun, hfraction⟩
  · exact .inl (digits_take hrun).ne_nil
  · refine .inr fun hnil => ?_
    rw [hrun, List.drop_zero] at hnil
    rcases List.take_eq_nil_iff.mp hnil with hzero | rfl
    · exact hfraction hzero
    · exact hfraction rfl

theorem figures_number (cs : List Char) :
    ∀ c ∈ cs.take (numberLength cs), isFigure c = true := by
  rw [numberLength, List.take_add, List.take_add]
  exact List.forall_mem_append.mpr ⟨List.forall_mem_append.mpr
    ⟨fun c hc => isFigure_of_isDigit (digit_take cs c hc), (fraction_take _).figures⟩,
      (exponent_take _).figures⟩

/-! ### Nothing longer is a number -/

theorem le_digitRun_append (h : ∀ c ∈ ds, c.isDigit = true) (d : List Char) :
    ds.length ≤ digitRun (ds ++ d) := by
  rw [digitRun, List.takeWhile_append_of_pos h, List.length_append]
  exact Nat.le_add_right _ _

theorem digitRun_append (h : ∀ c ∈ ds, c.isDigit = true) (hd : ∀ c ∈ d.head?, c.isDigit = false) :
    digitRun (ds ++ d) = ds.length := by
  have htake : d.takeWhile Char.isDigit = [] := by
    cases d with
    | nil => rfl
    | cons c d => exact List.takeWhile_cons_of_neg (by simp [hd c rfl])
  rw [digitRun, List.takeWhile_append_of_pos h, htake, List.append_nil]

theorem le_fractionLength_append (h : Digits ds) (d : List Char) :
    ds.length + 1 ≤ fractionLength ('.' :: (ds ++ d)) := by
  have hrun := le_digitRun_append h.digit d
  have hpos := List.length_pos_iff.mpr h.ne_nil
  rw [fractionLength, if_neg (by omega)]
  exact Nat.succ_le_succ hrun

theorem fractionLength_append (h : Digits ds) (hd : ∀ c ∈ d.head?, c.isDigit = false) :
    fractionLength ('.' :: (ds ++ d)) = ds.length + 1 := by
  have hpos := List.length_pos_iff.mpr h.ne_nil
  rw [fractionLength, digitRun_append h.digit hd, if_neg (by omega)]

theorem le_exponentLength_append (h : Exponent cs) (d : List Char) :
    cs.length ≤ exponentLength (cs ++ d) := by
  cases h with
  | absent => exact Nat.zero_le _
  | @power letter sign ds hletter hsign hds =>
      have hrun := le_digitRun_append hds.digit d
      have hpos := List.length_pos_iff.mpr hds.ne_nil
      have hpass : (if (sign ++ ds ++ d).head? = some '+' || (sign ++ ds ++ d).head? = some '-'
          then 1 else 0) = sign.length := by
        obtain ⟨x, ds, rfl⟩ := List.exists_cons_of_ne_nil hds.ne_nil
        have hx := hds.digit x List.mem_cons_self
        have hplus : x ≠ '+' := by rintro rfl; cases hx
        have hminus : x ≠ '-' := by rintro rfl; cases hx
        simp only [List.mem_cons, List.not_mem_nil, or_false] at hsign
        rcases hsign with rfl | rfl | rfl <;> simp [hplus, hminus]
      have hletter : (letter == 'e' || letter == 'E') = true := by simpa using hletter
      have hsome : (digitRun (ds ++ d) != 0) = true := bne_iff_ne.mpr (by omega)
      rw [List.cons_append, exponentLength, hpass, List.append_assoc, List.drop_left, hletter,
        hsome, Bool.and_self, if_pos rfl, List.length_cons, List.length_append]
      omega

/-- A letter is no digit and no point, so a fraction in front of an exponent is taken as a whole. -/
theorem le_lengths_append {fraction exponent : List Char} (hfraction : Fraction fraction)
    (hexponent : Exponent exponent) (d : List Char) :
    let tail := fraction ++ exponent ++ d
    fraction.length + exponent.length
      ≤ fractionLength tail + exponentLength (tail.drop (fractionLength tail)) := by
  intro tail
  cases hexponent with
  | absent =>
      refine Nat.le_add_right_of_le ?_
      cases hfraction with
      | absent => exact Nat.zero_le _
      | point hds => simpa [tail] using le_fractionLength_append hds d
  | @power letter sign ds hletter hsign hds =>
      have hexponent := le_exponentLength_append (.power hletter hsign hds) d
      have hlength : fractionLength tail = fraction.length := by
        cases hfraction with
        | absent => rcases hletter with rfl | rfl <;> rfl
        | point hfs =>
            have hdigit : letter.isDigit = false := by rcases hletter with rfl | rfl <;> rfl
            have hhead : ∀ c ∈ (letter :: (sign ++ ds) ++ d).head?, c.isDigit = false := by
              rintro c ⟨⟩
              exact hdigit
            have hrun := fractionLength_append hfs hhead
            rwa [← List.append_assoc] at hrun
      have htail : tail = fraction ++ (letter :: (sign ++ ds) ++ d) := List.append_assoc _ _ _
      rw [hlength, htail, List.drop_left]
      omega

/-- A number at the start of a text is no longer than what is taken. -/
theorem le_numberLength_append (h : Literal cs) (d : List Char) :
    cs.length ≤ numberLength (cs ++ d) := by
  obtain @⟨whole, fraction, exponent, hwhole, hfraction, -, hexponent⟩ := h
  have hsum := le_lengths_append hfraction hexponent d
  rw [List.append_assoc whole, List.append_assoc whole, List.length_append, List.length_append]
  by_cases hnone : fraction ++ exponent = []
  · obtain ⟨rfl, rfl⟩ := List.append_eq_nil_iff.mp hnone
    have hrun := le_digitRun_append hwhole d
    simp only [numberLength, List.nil_append, List.length_nil]
    omega
  · have hhead : ∀ c ∈ (fraction ++ exponent ++ d).head?, c.isDigit = false := by
      cases hfraction with
      | point _ =>
          rintro c ⟨⟩
          rfl
      | absent =>
          cases hexponent with
          | absent => exact absurd rfl hnone
          | power hletter _ _ =>
              rintro c ⟨⟩
              rcases hletter with rfl | rfl <;> rfl
    simp only [numberLength]
    rw [digitRun_append hwhole hhead, ← List.drop_drop, List.drop_left]
    omega

/-- What is taken goes at least as far as any number at the start of the text. -/
theorem prefix_take_numberLength {w : List Char} (h : Literal w) (hstart : w <+: cs) :
    w <+: cs.take (numberLength cs) := by
  refine List.prefix_take_iff.mpr ⟨hstart, ?_⟩
  obtain ⟨d, rfl⟩ := hstart
  exact le_numberLength_append h d

end Form

end MatrixScript
