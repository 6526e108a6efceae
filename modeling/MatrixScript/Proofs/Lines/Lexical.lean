import MatrixScript.Proofs.Embedded.Expressions
import Mathlib.Data.List.Find

/-!
# What the end of a line hides

A newline belongs to no word, no number and no operator, so a line is read in the same pieces
whether the text ends with it or goes on. One decision looks past it: a colon is a whole argument if
a comma or a parenthesis follows, on whatever line that stands. No other form starts with a colon,
so a form that is found in a line is also found in the longer text.
-/

namespace MatrixScript

/-- What can stand behind a text that is to be read alike with it and without it. -/
def EndsLine (tail : List Char) : Prop := tail = [] ∨ ∃ u, tail = '\n' :: u

theorem fence_newline : Fence '\n' := by constructor <;> decide

theorem head?_append_of_ne_nil {w tail : List Char} (hw : w ≠ []) :
    (w ++ tail).head? = w.head? := by
  obtain ⟨a, w, rfl⟩ := List.exists_cons_of_ne_nil hw
  rfl

namespace EndsLine

variable {w tail : List Char}

theorem takeWhile_eq (h : EndsLine tail) {p : Char → Bool} (hp : p '\n' = false) :
    (w ++ tail).takeWhile p = w.takeWhile p := by
  rcases h with rfl | ⟨u, rfl⟩
  · rw [List.append_nil]
  · exact takeWhile_fence hp

theorem dropWhile_eq (h : EndsLine tail) {p : Char → Bool} (hp : p '\n' = false) :
    (w ++ tail).dropWhile p = w.dropWhile p ++ tail := by
  rcases h with rfl | ⟨u, rfl⟩
  · rw [List.append_nil, List.append_nil]
  · exact dropWhile_fence hp

theorem isPrefixOf_eq (h : EndsLine tail) {word : List Char} (hword : '\n' ∉ word) :
    word.isPrefixOf (w ++ tail) = word.isPrefixOf w := by
  rcases h with rfl | ⟨u, rfl⟩
  · rw [List.append_nil]
  · exact isPrefixOf_fence hword

theorem startsWithWord_eq (h : EndsLine tail) {word : List Char} (hword : '\n' ∉ word) :
    startsWithWord word (w ++ tail) = startsWithWord word w := by
  rcases h with rfl | ⟨u, rfl⟩
  · rw [List.append_nil]
  · exact startsWithWord_fence fence_newline hword

theorem numberLength_eq (h : EndsLine tail) :
    Form.numberLength (w ++ tail) = Form.numberLength w := by
  rcases h with rfl | ⟨u, rfl⟩
  · rw [List.append_nil]
  · exact Form.numberLength_fence fence_newline

/-- Looking at one character behind a text gives nothing that the end of a line would change. -/
theorem head?_any (h : EndsLine tail) {p : Char → Bool} (hp : p '\n' = false) :
    (w ++ tail).head?.any p = w.head?.any p := by
  cases w with
  | cons a w => rfl
  | nil =>
      rcases h with rfl | ⟨u, rfl⟩
      · rfl
      · exact hp

theorem head?_eq_some_iff (h : EndsLine tail) {x : Char} (hx : x ≠ '\n') :
    (w ++ tail).head? = some x ↔ w.head? = some x := by
  cases w with
  | cons a w => rfl
  | nil =>
      rcases h with rfl | ⟨u, rfl⟩
      · rfl
      · simp [Ne.symm hx]

/-! ### Operators -/

theorem findOperators_eq (h : EndsLine tail) :
    Grammar.standard.operators.find? (·.symbol.isPrefixOf (w ++ tail))
      = Grammar.standard.operators.find? (·.symbol.isPrefixOf w) := by
  have hall : ∀ op ∈ Operator.standard, '\n' ∉ op.symbol := by decide
  exact List.find?_congr fun op hop =>
    h.isPrefixOf_eq (hall op (Grammar.mem_standard_operators.mp hop))

theorem findOperator?_eq (h : EndsLine tail) (premise : Option (List Char)) :
    Grammar.standard.findOperator? (w ++ tail) premise
      = Grammar.standard.findOperator? w premise := by
  unfold Grammar.findOperator?
  rw [h.findOperators_eq]

theorem endsOperators_eq (h : EndsLine tail) (flags : Flags) (spaced : Bool) :
    Grammar.standard.endsOperators flags spaced (w ++ tail)
      = Grammar.standard.endsOperators flags spaced w := by
  cases w with
  | nil =>
      rcases h with rfl | ⟨u, rfl⟩
      · rfl
      · simp [Grammar.endsOperators]
  | cons a w =>
      have helse : startsWithWord "else".toList (a :: (w ++ tail))
          = startsWithWord "else".toList (a :: w) := by
        rw [← List.cons_append, h.startsWithWord_eq (by decide)]
      have hfind : Grammar.standard.findOperator? (a :: (w ++ tail)) none
          = Grammar.standard.findOperator? (a :: w) none := by
        rw [← List.cons_append, h.findOperator?_eq]
      have hnext : (w ++ tail).head?.any (!isBlank ·) = w.head?.any (!isBlank ·) :=
        h.head?_any (by decide)
      have hbar : ((w ++ tail).head? != some '|') = (w.head? != some '|') := by
        rw [Bool.eq_iff_iff, bne_iff_ne, bne_iff_ne, ne_eq, ne_eq,
          h.head?_eq_some_iff (by decide)]
      simp only [Grammar.endsOperators, List.cons_append, helse, hfind, hnext, hbar]

/-! ### Forms -/

theorem everything_of_accepts {flags : Flags}
    (haccepts : Form.everything.accepts w flags = true) :
    Form.everything.accepts (w ++ tail) flags = true := by
  obtain ⟨v, rfl⟩ := List.head?_eq_some_iff.mp (Form.colon_of_accepts haccepts)
  have hmore : v.dropWhile isBlank ≠ [] := by
    intro hnil
    simp [Form.everything, hnil] at haccepts
  have hhead : ((v ++ tail).dropWhile isBlank).head? = (v.dropWhile isBlank).head? := by
    rw [List.dropWhile_append, if_neg (by simpa using hmore), head?_append_of_ne_nil hmore]
  simp only [Form.everything, List.cons_append, hhead] at haccepts ⊢
  exact haccepts

theorem accepts_eq (h : EndsLine tail) {f : Nat × Form} (hf : f ∈ Form.standard) (flags : Flags)
    (hcolon : w.head? ≠ some ':') : f.2.accepts (w ++ tail) flags = f.2.accepts w flags := by
  have hkeyword (word : List Char) (parts : Surroundings → Reading (NodeKind NodeId))
      (hword : '\n' ∉ word) : (Form.keyword word parts).accepts (w ++ tail) flags
        = (Form.keyword word parts).accepts w flags := h.startsWithWord_eq hword
  have hhead {x : Char} (hx : x ≠ '\n') :
      decide ((w ++ tail).head? = some x) = decide (w.head? = some x) := by
    rw [decide_eq_decide]
    exact h.head?_eq_some_iff hx
  simp only [Form.standard, List.mem_cons, List.not_mem_nil, or_false] at hf
  rcases hf with rfl | rfl | rfl | rfl | rfl | rfl | rfl | rfl | rfl | rfl | rfl | rfl | rfl
  -- `if`, `while`, `for` and `end`
  · exact hkeyword _ _ (by decide)
  · exact hkeyword _ _ (by decide)
  · exact hkeyword _ _ (by decide)
  · exact hkeyword _ _ (by decide)
  · have hfalse {v : List Char} (hv : v.head? ≠ some ':') :
        Form.everything.accepts v flags = false := by
      rw [Bool.eq_false_iff]
      exact fun haccepts => hv (Form.colon_of_accepts haccepts)
    rw [hfalse hcolon, hfalse]
    exact fun hhead => hcolon ((h.head?_eq_some_iff (by decide)).mp hhead)
  · rcases h with rfl | ⟨u, rfl⟩
    · rw [List.append_nil]
    · have hdigit : '\n'.isDigit = false := by decide
      have hpoint : '.'.isDigit = false := by decide
      rcases w with _ | ⟨a, _ | ⟨b, w⟩⟩
      · simp [Form.number, hdigit]
      · by_cases ha : a = '.'
        · simp [Form.number, ha, hdigit, hpoint]
        · simp [Form.number, ha]
      · by_cases ha : a = '.' <;> simp [Form.number, ha]
  · exact hhead (by decide)
  · have hreserved : ∀ word ∈ reservedWords, '\n' ∉ word := by decide
    have hany : reservedWords.any (startsWithWord · (w ++ tail))
        = reservedWords.any (startsWithWord · w) := by
      rw [Bool.eq_iff_iff]
      simp only [List.any_eq_true]
      exact exists_congr fun word => and_congr_right fun hword => by
        rw [h.startsWithWord_eq (hreserved word hword)]
    have hstart : (w ++ tail).head?.any isWordStart = w.head?.any isWordStart :=
      h.head?_any (by decide)
    simp only [Form.identifier, hstart, hany]
  · exact hhead (by decide)
  · exact hhead (by decide)
  · cases w with
    | nil =>
        rcases h with rfl | ⟨u, rfl⟩
        · rfl
        · simp [Form.abs]
    | cons a w =>
        have hbar : ((w ++ tail).head? != some '|') = (w.head? != some '|') := by
          rw [Bool.eq_iff_iff, bne_iff_ne, bne_iff_ne, ne_eq, ne_eq,
            h.head?_eq_some_iff (by decide)]
        simp only [Form.abs, List.cons_append, List.head?_cons, List.tail_cons]
        rw [hbar]
        rfl
  · cases w with
    | nil =>
        rcases h with rfl | ⟨u, rfl⟩ <;> rfl
    | cons a w => rfl
  · exact hhead (by decide)

theorem findForm?_eq (h : EndsLine tail) (flags : Flags) (hcolon : w.head? ≠ some ':') :
    Grammar.standard.findForm? (w ++ tail) flags = Grammar.standard.findForm? w flags := by
  have hfind : Form.standard.find? (·.2.accepts (w ++ tail) flags)
      = Form.standard.find? (·.2.accepts w flags) :=
    List.find?_congr fun f hf => h.accepts_eq hf flags hcolon
  exact congrArg (Option.map (·.2)) hfind

end EndsLine

/-- In front of a colon there is no form but that of a whole argument. -/
theorem Grammar.findForm?_colon (v : List Char) (flags : Flags) :
    standard.findForm? (':' :: v) flags
      = if Form.everything.accepts (':' :: v) flags then some Form.everything else none := by
  have hkeyword (word : List Char) (parts : Surroundings → Reading (NodeKind NodeId))
      (hne : word ≠ []) (hmem : ':' ∉ word) :
      (Form.keyword word parts).accepts (':' :: v) flags = false := by
    obtain ⟨a, word, rfl⟩ := List.exists_cons_of_ne_nil hne
    have ha : (a == ':') = false := beq_false_of_ne fun ha => hmem (ha ▸ List.mem_cons_self)
    simp only [Form.keyword, startsWithWord, List.isPrefixOf, ha, Bool.false_and]
  have hbranch : Form.branch.accepts (':' :: v) flags = false :=
    hkeyword ['i', 'f'] _ (by decide) (by decide)
  have hwhile : Form.whileLoop.accepts (':' :: v) flags = false :=
    hkeyword ['w', 'h', 'i', 'l', 'e'] _ (by decide) (by decide)
  have hfor : Form.forLoop.accepts (':' :: v) flags = false :=
    hkeyword ['f', 'o', 'r'] _ (by decide) (by decide)
  have hlast : Form.last.accepts (':' :: v) flags = false :=
    hkeyword ['e', 'n', 'd'] _ (by decide) (by decide)
  have hnumber : Form.number.accepts (':' :: v) flags = false := by cases v <;> rfl
  have hstart : isWordStart ':' = false := by decide
  have hname : Form.identifier.accepts (':' :: v) flags = false := by simp [Form.identifier, hstart]
  simp only [findForm?, standard, Form.standard, List.find?_cons, hbranch, hwhile, hfor, hlast,
    hnumber, hname]
  cases Form.everything.accepts (':' :: v) flags <;> rfl

namespace EndsLine

variable {w tail : List Char}

/-- A form that is found in a line is found in the longer text. -/
theorem findForm?_eq_some (h : EndsLine tail) {flags : Flags} {form : Form}
    (hform : Grammar.standard.findForm? w flags = some form) :
    Grammar.standard.findForm? (w ++ tail) flags = some form := by
  by_cases hcolon : w.head? = some ':'
  · obtain ⟨v, rfl⟩ := List.head?_eq_some_iff.mp hcolon
    rw [Grammar.findForm?_colon] at hform
    split at hform
    · rename_i haccepts
      have hmore : Form.everything.accepts (':' :: (v ++ tail)) flags = true :=
        everything_of_accepts haccepts
      rw [List.cons_append, Grammar.findForm?_colon, if_pos hmore, ← hform]
    · cases hform
  · rw [h.findForm?_eq flags hcolon, hform]

end EndsLine

namespace Grammar

/-- There is no form in front of the word `else`. -/
theorem findForm?_else {w : List Char} (hw : startsWithWord ['e', 'l', 's', 'e'] w = true)
    (flags : Flags) : standard.findForm? w flags = none := by
  obtain ⟨v, rfl⟩ := exists_of_startsWithWord hw
  have hreserved : reservedWords.any (startsWithWord · (['e', 'l', 's', 'e'] ++ v)) = true :=
    List.any_eq_true.mpr ⟨_, by decide, hw⟩
  have hname : Form.identifier.accepts (['e', 'l', 's', 'e'] ++ v) flags = false := by
    simp only [Form.identifier, hreserved, Bool.not_true, Bool.and_false]
  simp only [findForm?, standard, Form.standard, List.find?_cons, hname]
  rcases flags with ⟨_, _ | _, _, _⟩ <;> rfl

/-- There is no form in front of a character that may start text without meaning. -/
theorem findForm?_trigger {x : Char} (hx : x ∈ triggers) (v : List Char) (flags : Flags) :
    standard.findForm? (x :: v) flags = none := by
  simp only [triggers, List.mem_cons, List.not_mem_nil, or_false] at hx
  rcases flags with ⟨_, _ | _, _, _⟩ <;>
    rcases hx with rfl | rfl | rfl | rfl | rfl | rfl <;> rfl

end Grammar

end MatrixScript
