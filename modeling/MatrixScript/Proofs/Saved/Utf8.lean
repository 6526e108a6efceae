import MatrixScript.Text.Utf8
import Mathlib.Tactic.SplitIfs

/-!
# Text and its bytes

Writing a text as bytes and reading bytes as text undo each other. A text is read back whatever its
characters are, and because overlong forms and surrogates are refused, bytes that can be read are
the only bytes of their text.
-/

namespace MatrixScript

namespace Utf8

theorem continues_iff {b : UInt8} : continues b = true ↔ 128 ≤ b.toNat ∧ b.toNat ≤ 191 := by
  simp [continues, UInt8.le_iff_toNat_le]

theorem secondOfThree_iff {a b : UInt8} :
    secondOfThree a b = true ↔ 128 ≤ b.toNat ∧ b.toNat ≤ 191 ∧ (a.toNat = 224 → 160 ≤ b.toNat) ∧
      (a.toNat = 237 → b.toNat ≤ 159) := by
  have hE0 : a = 0xE0 ↔ a.toNat = 224 := by rw [← UInt8.toNat_inj]; rfl
  have hED : a = 0xED ↔ a.toNat = 237 := by rw [← UInt8.toNat_inj]; rfl
  simp only [secondOfThree, Bool.and_eq_true, continues_iff, Bool.or_eq_true, bne_iff_ne, ne_eq,
    decide_eq_true_eq, UInt8.le_iff_toNat_le, hE0, hED, UInt8.reduceToNat]
  omega

theorem secondOfFour_iff {a b : UInt8} :
    secondOfFour a b = true ↔ 128 ≤ b.toNat ∧ b.toNat ≤ 191 ∧ (a.toNat = 240 → 144 ≤ b.toNat) ∧
      (a.toNat = 244 → b.toNat ≤ 143) := by
  have hF0 : a = 0xF0 ↔ a.toNat = 240 := by rw [← UInt8.toNat_inj]; rfl
  have hF4 : a = 0xF4 ↔ a.toNat = 244 := by rw [← UInt8.toNat_inj]; rfl
  simp only [secondOfFour, Bool.and_eq_true, continues_iff, Bool.or_eq_true, bne_iff_ne, ne_eq,
    decide_eq_true_eq, UInt8.le_iff_toNat_le, hF0, hF4, UInt8.reduceToNat]
  omega

theorem toNat_ofNat_of_valid {n : Nat} (hn : n < 0xD800 ∨ 0xDFFF < n ∧ n < 0x110000) :
    (Char.ofNat n).toNat = n := by
  have h : n.isValidChar := hn
  rw [Char.ofNat, dif_pos h]
  rfl

/-- The characters that some bytes begin with, one after the other. -/
theorem decodeFrom_encodeChar (i : Nat) (c : Char) (rest : List UInt8) :
    decodeFrom i (String.utf8EncodeChar c ++ rest)
      = (c :: ·) <$> decodeFrom (i + (String.utf8EncodeChar c).length) rest := by
  have hvalid : c.toNat < 0xD800 ∨ 0xDFFF < c.toNat ∧ c.toNat < 0x110000 := c.valid
  have hself : Char.ofNat c.toNat = c := Char.ofNat_toNat c
  have hval : c.val.toNat = c.toNat := rfl
  have hbyte : ∀ n < 256, (UInt8.ofNat n).toNat = n := fun n hn => by
    rw [UInt8.toNat_ofNat']; omega
  unfold String.utf8EncodeChar
  simp only [hval]
  split_ifs with h1 h2 h3
  · rw [List.singleton_append, decodeFrom.eq_def]
    have e0 := hbyte c.toNat (by omega)
    simp only [UInt8.lt_iff_toNat_lt, e0, UInt8.reduceToNat, show c.toNat < 128 by omega, if_true,
      hself, List.length_singleton]
  · have e0 := hbyte (c.toNat / 64 % 32 + 192) (by omega)
    have e1 := hbyte (c.toNat % 64 + 128) (by omega)
    rw [List.cons_append, List.singleton_append, decodeFrom.eq_def]
    simp only [UInt8.lt_iff_toNat_lt, UInt8.le_iff_toNat_le, continues_iff, Bool.and_eq_true,
      decide_eq_true_eq, e0, e1, UInt8.reduceToNat, lowBits]
    rw [if_neg (by omega), if_pos (by omega), if_pos (by omega)]
    rw [show (c.toNat / 64 % 32 + 192) % 32 * 64 + (c.toNat % 64 + 128) % 64 = c.toNat by omega, hself]
    rfl
  · have e0 := hbyte (c.toNat / 4096 % 16 + 224) (by omega)
    have e1 := hbyte (c.toNat / 64 % 64 + 128) (by omega)
    have e2 := hbyte (c.toNat % 64 + 128) (by omega)
    rw [List.cons_append, List.cons_append, List.singleton_append, decodeFrom.eq_def]
    simp only [UInt8.lt_iff_toNat_lt, UInt8.le_iff_toNat_le, continues_iff, secondOfThree_iff,
      Bool.and_eq_true, decide_eq_true_eq, e0, e1, e2, UInt8.reduceToNat, lowBits]
    rw [if_neg (by omega), if_neg (by omega), if_pos (by omega), if_pos (by omega),
      if_pos (by omega)]
    rw [show ((c.toNat / 4096 % 16 + 224) % 16 * 64 + (c.toNat / 64 % 64 + 128) % 64) * 64
        + (c.toNat % 64 + 128) % 64 = c.toNat by omega, hself]
    rfl
  · have e0 := hbyte (c.toNat / 262144 % 8 + 240) (by omega)
    have e1 := hbyte (c.toNat / 4096 % 64 + 128) (by omega)
    have e2 := hbyte (c.toNat / 64 % 64 + 128) (by omega)
    have e3 := hbyte (c.toNat % 64 + 128) (by omega)
    rw [List.cons_append, List.cons_append, List.cons_append, List.singleton_append,
      decodeFrom.eq_def]
    simp only [UInt8.lt_iff_toNat_lt, UInt8.le_iff_toNat_le, continues_iff, secondOfFour_iff,
      Bool.and_eq_true, decide_eq_true_eq, e0, e1, e2, e3, UInt8.reduceToNat, lowBits]
    rw [if_neg (by omega), if_neg (by omega), if_neg (by omega), if_pos (by omega),
      if_pos (by omega), if_pos (by omega), if_pos (by omega)]
    rw [show (((c.toNat / 262144 % 8 + 240) % 8 * 64 + (c.toNat / 4096 % 64 + 128) % 64) * 64
        + (c.toNat / 64 % 64 + 128) % 64) * 64 + (c.toNat % 64 + 128) % 64 = c.toNat by omega,
      hself]
    rfl

/-- Reading gives back the text that was written. -/
theorem decodeFrom_encode (i : Nat) (cs : List Char) : decodeFrom i (encode cs) = .ok cs := by
  induction cs generalizing i with
  | nil => rfl
  | cons c cs ih =>
      change decodeFrom i (String.utf8EncodeChar c ++ encode cs) = _
      rw [decodeFrom_encodeChar, ih]
      rfl

theorem encodeChar_one {a : UInt8} (ha : a.toNat < 128) :
    String.utf8EncodeChar (Char.ofNat a.toNat) = [a] := by
  have hc := toNat_ofNat_of_valid (n := a.toNat) (by omega)
  unfold String.utf8EncodeChar
  simp only [show (Char.ofNat a.toNat).val.toNat = a.toNat from hc]
  rw [if_pos (by omega), UInt8.ofNat_toNat]

theorem encodeChar_two {a b : UInt8} (ha : 194 ≤ a.toNat ∧ a.toNat ≤ 223)
    (hb : 128 ≤ b.toNat ∧ b.toNat ≤ 191) :
    String.utf8EncodeChar (Char.ofNat (a.toNat % 32 * 64 + lowBits b)) = [a, b] := by
  unfold lowBits
  generalize hn : a.toNat % 32 * 64 + b.toNat % 64 = n
  have hc := toNat_ofNat_of_valid (n := n) (by omega)
  unfold String.utf8EncodeChar
  simp only [show (Char.ofNat n).val.toNat = n from hc]
  rw [if_neg (by omega), if_pos (by omega), show n / 64 % 32 + 192 = a.toNat by omega,
    show n % 64 + 128 = b.toNat by omega, UInt8.ofNat_toNat, UInt8.ofNat_toNat]

theorem encodeChar_three {a b c : UInt8} (ha : 224 ≤ a.toNat ∧ a.toNat ≤ 239)
    (hb : secondOfThree a b = true) (hc : 128 ≤ c.toNat ∧ c.toNat ≤ 191) :
    String.utf8EncodeChar (Char.ofNat ((a.toNat % 16 * 64 + lowBits b) * 64 + lowBits c))
      = [a, b, c] := by
  obtain ⟨hb0, hb1, hbE0, hbED⟩ := secondOfThree_iff.mp hb
  unfold lowBits
  generalize hn : (a.toNat % 16 * 64 + b.toNat % 64) * 64 + c.toNat % 64 = n
  have hchar := toNat_ofNat_of_valid (n := n) (by omega)
  unfold String.utf8EncodeChar
  simp only [show (Char.ofNat n).val.toNat = n from hchar]
  rw [if_neg (by omega), if_neg (by omega), if_pos (by omega),
    show n / 4096 % 16 + 224 = a.toNat by omega, show n / 64 % 64 + 128 = b.toNat by omega,
    show n % 64 + 128 = c.toNat by omega, UInt8.ofNat_toNat, UInt8.ofNat_toNat, UInt8.ofNat_toNat]

theorem encodeChar_four {a b c d : UInt8} (ha : 240 ≤ a.toNat ∧ a.toNat ≤ 244)
    (hb : secondOfFour a b = true) (hc : 128 ≤ c.toNat ∧ c.toNat ≤ 191)
    (hd : 128 ≤ d.toNat ∧ d.toNat ≤ 191) :
    String.utf8EncodeChar
        (Char.ofNat (((a.toNat % 8 * 64 + lowBits b) * 64 + lowBits c) * 64 + lowBits d))
      = [a, b, c, d] := by
  obtain ⟨hb0, hb1, hbF0, hbF4⟩ := secondOfFour_iff.mp hb
  unfold lowBits
  generalize hn :
    ((a.toNat % 8 * 64 + b.toNat % 64) * 64 + c.toNat % 64) * 64 + d.toNat % 64 = n
  have hchar := toNat_ofNat_of_valid (n := n) (by omega)
  unfold String.utf8EncodeChar
  simp only [show (Char.ofNat n).val.toNat = n from hchar]
  rw [if_neg (by omega), if_neg (by omega), if_neg (by omega),
    show n / 262144 % 8 + 240 = a.toNat by omega, show n / 4096 % 64 + 128 = b.toNat by omega,
    show n / 64 % 64 + 128 = c.toNat by omega, show n % 64 + 128 = d.toNat by omega,
    UInt8.ofNat_toNat, UInt8.ofNat_toNat, UInt8.ofNat_toNat, UInt8.ofNat_toNat]

theorem encode_cons (c : Char) (cs : List Char) :
    encode (c :: cs) = String.utf8EncodeChar c ++ encode cs := rfl

theorem encode_of_map {c : Char} {front rest : List UInt8} {cs : List Char}
    {read : Except Utf8Fault (List Char)} (hc : String.utf8EncodeChar c = front)
    (ih : ∀ {ds}, read = .ok ds → encode ds = rest) (h : (c :: ·) <$> read = .ok cs) :
    encode cs = front ++ rest := by
  cases read with
  | error fault => cases h
  | ok ds =>
      obtain rfl : c :: ds = cs := Except.ok.inj h
      rw [encode_cons, hc, ih rfl]

/-- Each text has one form, so whatever can be read is the form of what was read. -/
theorem encode_of_decodeFrom {i : Nat} {bytes : List UInt8} {cs : List Char}
    (h : decodeFrom i bytes = .ok cs) : encode cs = bytes := by
  have hbetween : ∀ {a low high : UInt8}, (low ≤ a && a ≤ high) = true →
      low.toNat ≤ a.toNat ∧ a.toNat ≤ high.toNat := by
    intro a low high
    simp [UInt8.le_iff_toNat_le]
  fun_induction decodeFrom i bytes generalizing cs
  case case1 =>
    obtain rfl : [] = cs := Except.ok.inj h
    rfl
  case case2 i a rest ha ih =>
    exact encode_of_map (encodeChar_one (UInt8.lt_iff_toNat_lt.mp ha)) ih h
  case case4 i a _ ha b rest hb ih =>
    exact encode_of_map (encodeChar_two (hbetween ha) (continues_iff.mp hb)) ih h
  case case8 i a _ _ ha b hb c rest hc ih =>
    exact encode_of_map (encodeChar_three (hbetween ha) hb (continues_iff.mp hc)) ih h
  case case14 i a _ _ _ ha b hb c hc d rest hd ih =>
    exact encode_of_map
      (encodeChar_four (hbetween ha) hb (continues_iff.mp hc) (continues_iff.mp hd)) ih h
  all_goals cases h

theorem decode_eq_ok_iff {bytes : List UInt8} {cs : List Char} :
    decode bytes = .ok cs ↔ bytes = encode cs := by
  constructor
  · intro h
    exact (encode_of_decodeFrom h).symm
  · rintro rfl
    exact decodeFrom_encode 0 cs

end Utf8
end MatrixScript
