import MatrixScript.Proofs.Reading.Runs

/-!
# Names on known text

A name is a word that is not reserved. Wherever no word goes on behind it, the first form that
accepts the text is the one that reads names, and it reads the whole name.
-/

namespace MatrixScript

open Reading

/-- Whether the characters are a name. -/
structure IsName (word : List Char) : Prop where
  start : ∃ c ∈ word.head?, isWordStart c = true
  chars : ∀ c ∈ word, isWordChar c = true
  free : word ∉ reservedWords

instance (word : List Char) : Decidable (IsName word) :=
  decidable_of_iff ((∃ c ∈ word.head?, isWordStart c = true) ∧ (∀ c ∈ word, isWordChar c = true)
    ∧ word ∉ reservedWords) ⟨fun h => ⟨h.1, h.2.1, h.2.2⟩, fun h => ⟨h.start, h.chars, h.free⟩⟩

/-- Whether a text does not go on with a word. -/
def EndsWord (text : List Char) : Prop := ∀ c ∈ text.head?, isWordChar c = false

/-- A text in parentheses. -/
def grouped (text : List Char) : List Char := '(' :: (text ++ [')'])

theorem isWordStart_of_isDigit {c : Char} (h : c.isDigit = true) : isWordStart c = false := by
  simp only [Char.isDigit, Bool.and_eq_true, decide_eq_true_eq, ge_iff_le,
    UInt32.le_iff_toNat_le] at h
  have hbounds : 48 ≤ c.toNat ∧ c.toNat ≤ 57 := h
  have hscore : c ≠ '_' := by
    rintro rfl
    revert hbounds
    decide
  have halpha : c.isAlpha = false := by
    rw [Bool.eq_false_iff]
    intro hc
    have hletter : 65 ≤ c.toNat ∧ c.toNat ≤ 90 ∨ 97 ≤ c.toNat ∧ c.toNat ≤ 122 := by
      rcases (Bool.or_eq_true _ _).mp hc with hupper | hlower
      · have hbetween : 65 ≤ c.val ∧ c.val ≤ 90 := of_decide_eq_true hupper
        exact .inl (hbetween.imp UInt32.le_iff_toNat_le.mp UInt32.le_iff_toNat_le.mp)
      · have hbetween : decide (97 ≤ c.val) && decide (c.val ≤ 122) := hlower
        rw [Bool.and_eq_true, decide_eq_true_eq, decide_eq_true_eq] at hbetween
        exact .inr (hbetween.imp UInt32.le_iff_toNat_le.mp UInt32.le_iff_toNat_le.mp)
    omega
  have hascii : c.toNat < 128 := by omega
  rw [isWordStart, isLetter, if_pos hascii, halpha, Bool.false_or, beq_eq_false_iff_ne]
  exact hscore

theorem takeWhile_word {word d : List Char} (hword : ∀ c ∈ word, isWordChar c = true)
    (hd : EndsWord d) : (word ++ d).takeWhile isWordChar = word
      ∧ (word ++ d).dropWhile isWordChar = d := by
  induction word with
  | nil =>
      cases d with
      | nil => exact ⟨rfl, rfl⟩
      | cons c d =>
          have hc : ¬isWordChar c = true := by simp [hd c rfl]
          exact ⟨List.takeWhile_cons_of_neg hc, List.dropWhile_cons_of_neg hc⟩
  | cons c word ih =>
      obtain ⟨htake, hdrop⟩ := ih fun c hc => hword c (List.mem_cons_of_mem _ hc)
      have hc := hword c List.mem_cons_self
      rw [List.cons_append, List.takeWhile_cons_of_pos hc, List.dropWhile_cons_of_pos hc, htake, hdrop]
      exact ⟨rfl, rfl⟩

/-- A whole word starts a text that starts with another whole word only if it is that word. -/
theorem startsWithWord_word {key word d : List Char} (hkey : ∀ c ∈ key, isWordChar c = true)
    (hword : ∀ c ∈ word, isWordChar c = true) (hd : EndsWord d)
    (h : startsWithWord key (word ++ d) = true) : key = word := by
  obtain ⟨rest, hrest⟩ := exists_of_startsWithWord h
  have hends : EndsWord rest := by
    have hbehind := (Bool.and_eq_true_iff.mp h).2
    rw [hrest, List.drop_left] at hbehind
    intro c hc
    rw [hc] at hbehind
    simpa using hbehind
  have htake := (takeWhile_word hword hd).1
  rw [hrest, (takeWhile_word hkey hends).1] at htake
  exact htake

namespace Grammar

variable {word d : List Char}

theorem not_startsWithWord_of_isName (hword : IsName word) (hd : EndsWord d) {key : List Char}
    (hkey : key ∈ reservedWords) : startsWithWord key (word ++ d) = false := by
  rw [Bool.eq_false_iff]
  intro h
  have hchars : ∀ key ∈ reservedWords, ∀ c ∈ key, isWordChar c = true := by decide
  have heq := startsWithWord_word (hchars key hkey) hword.chars hd h
  exact hword.free (heq ▸ hkey)

theorem identifier_accepts (hword : IsName word) (hd : EndsWord d) (flags : Flags) :
    Form.identifier.accepts (word ++ d) flags = true := by
  obtain ⟨c, hhead, hstart⟩ := hword.start
  have hany : (word ++ d).head?.any isWordStart = true := by
    obtain ⟨cs, rfl⟩ := List.head?_eq_some_iff.mp hhead
    exact hstart
  have hfree : (reservedWords.any fun key => startsWithWord key (word ++ d)) = false := by
    rw [List.any_eq_false]
    intro key hkey
    rw [not_startsWithWord_of_isName hword hd hkey]
    exact Bool.false_ne_true
  simp only [Form.identifier, hany, hfree, Bool.not_false, Bool.and_true]

/-- A name is read by the form that reads names. -/
theorem findForm?_name (hword : IsName word) (hd : EndsWord d) (flags : Flags) :
    standard.findForm? (word ++ d) flags = some Form.identifier := by
  have hkeyword {key : List Char} (hkey : key ∈ reservedWords)
      (parts : Surroundings → Reading (NodeKind NodeId)) :
      (Form.keyword key parts).accepts (word ++ d) flags = false :=
    not_startsWithWord_of_isName hword hd hkey
  obtain ⟨c, hhead, hstart⟩ := hword.start
  obtain ⟨cs, rfl⟩ := List.head?_eq_some_iff.mp hhead
  have hdigit : c.isDigit = false := by
    rw [Bool.eq_false_iff]
    intro h
    rw [isWordStart_of_isDigit h] at hstart
    cases hstart
  have hother {x : Char} (hx : isWordStart x = false) : c ≠ x := by
    rintro rfl
    rw [hx] at hstart
    cases hstart
  have heverything : Form.everything.accepts (c :: cs ++ d) flags = false := by
    simp [Form.everything, hother (x := ':') (by decide)]
  have hnumber : Form.number.accepts (c :: cs ++ d) flags = false := by
    simp [Form.number, hdigit, hother (x := '.') (by decide)]
  have htext : Form.text.accepts (c :: cs ++ d) flags = false := by
    simp [Form.text, hother (x := '"') (by decide)]
  have hidentifier := identifier_accepts hword hd flags
  have hfind : Form.standard.find? (·.2.accepts (c :: cs ++ d) flags)
      = some (600, Form.identifier) := by
    rw [Form.standard, List.find?_cons_of_neg, List.find?_cons_of_neg, List.find?_cons_of_neg,
      List.find?_cons_of_neg, List.find?_cons_of_neg, List.find?_cons_of_neg, List.find?_cons_of_neg,
      List.find?_cons_of_pos]
    · exact hidentifier
    · exact Bool.eq_false_iff.mp htext
    · exact Bool.eq_false_iff.mp hnumber
    · exact Bool.eq_false_iff.mp heverything
    · exact Bool.eq_false_iff.mp (hkeyword (by decide) _)
    · exact Bool.eq_false_iff.mp (hkeyword (by decide) _)
    · exact Bool.eq_false_iff.mp (hkeyword (by decide) _)
    · exact Bool.eq_false_iff.mp (hkeyword (by decide) _)
  rw [findForm?, standard, hfind, Option.map_some]

theorem plain_of_isName (hword : IsName word) (d : List Char) : Plain (word ++ d) := by
  obtain ⟨c, hhead, hstart⟩ := hword.start
  obtain ⟨cs, rfl⟩ := List.head?_eq_some_iff.mp hhead
  have hall : ∀ x ∈ triggers, isWordStart x = false := by decide
  intro x hx htrigger
  cases hx
  rw [hall c htrigger] at hstart
  cases hstart

/-- A name is read as an operand where the form that reads names is found. -/
theorem name_operand {g : Grammar} {s : Surroundings} {r₀ r : Reader} {b : Bool}
    (hform : g.findForm? r.cursor.rest s.mode.flags = some Form.identifier) (hword : IsName word)
    (hd : EndsWord d) (hskip : s.skip r₀ = .ok (b, r)) (hrest : r.cursor.rest = word ++ d) :
    ∃ span, g.operand s r₀ = .ok (r.forest.nextId,
      ((r.movedTo ⟨r.cursor.offset + byteCount word, d⟩).withNode (.name (String.ofList word))
        span).afterOperand Form.identifier r.forest.nextId) := by
  obtain ⟨htake, hdrop⟩ := takeWhile_word hword.chars hd
  let after : Cursor := ⟨r.cursor.offset + byteCount word, d⟩
  have hread : Form.identifier.read s r = .ok (r.forest.nextId, (r.movedTo after).withNode
      (.name (String.ofList word)) (after.spanFrom r.cursor.offset)) := by
    rw [Form.identifier_read, Cursor.takeWhile, hrest, htake, hdrop]
    rfl
  exact ⟨_, operand_eq_ok_iff.mpr ⟨b, r, hskip, _, hform, _, hread, rfl⟩⟩

end Grammar

end MatrixScript
