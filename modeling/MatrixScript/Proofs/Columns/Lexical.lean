import MatrixScript.Proofs.Columns.Compact

/-!
# What stands behind an element

In a row an element is followed by a comma, a blank or the closing bracket. None of these is part of
a word, a number or an operator, so an element is read in the same pieces in front of any of them.
Two decisions look further. A sign behind a blank continues the element if a blank follows it, and a
colon is a whole argument if a comma or a parenthesis comes next. Neither can be decided by what
stands behind the element while a delimiter in it is still open.

Behind a blank the next element has to be told from an operator. It starts as an operand, which no
operator that joins operands does, apart from signs; and a sign that starts an element has no blank
behind it.
-/

namespace MatrixScript

/-- What can stand right behind an element. -/
def marks : List Char := [',', ']', ' ']

/-- What closes a delimiter. -/
def closers : List Char := [')', ']', '\x7d', '|']

theorem fence_mark {x : Char} (hx : x ∈ marks) : Fence x := by
  simp only [marks, List.mem_cons, List.not_mem_nil, or_false] at hx
  rcases hx with rfl | rfl | rfl <;> constructor <;> decide

namespace Grammar

variable {w u v : List Char} {x y : Char} {flags : Flags}

theorem findOperator?_mark (hx : x ∈ marks) (premise : Option (List Char)) :
    standard.findOperator? (w ++ x :: u) premise = standard.findOperator? w premise := by
  have hall : ∀ op ∈ Operator.standard, ∀ x ∈ marks, x ∉ op.symbol := by decide
  have hfind : standard.operators.find? (·.symbol.isPrefixOf (w ++ x :: u))
      = standard.operators.find? (·.symbol.isPrefixOf w) :=
    List.find?_congr fun op hop => isPrefixOf_fence (hall op (mem_standard_operators.mp hop) x hx)
  unfold findOperator?
  rw [hfind]

theorem endsOperators_mark (hx : x ∈ marks) (hy : y ∈ marks) (hw : w ≠ []) {spaced : Bool}
    (hspaced : spaced = false ∨ ∃ c ∈ w, c ∈ closers) :
    standard.endsOperators flags spaced (w ++ x :: u)
      = standard.endsOperators flags spaced (w ++ y :: v) := by
  obtain ⟨a, w, rfl⟩ := List.exists_cons_of_ne_nil hw
  have helse : startsWithWord "else".toList (a :: (w ++ x :: u))
      = startsWithWord "else".toList (a :: (w ++ y :: v)) := by
    have hall : ∀ x ∈ marks, x ∉ "else".toList := by decide
    rw [← List.cons_append, ← List.cons_append, startsWithWord_fence (fence_mark hx) (hall x hx),
      startsWithWord_fence (fence_mark hy) (hall y hy)]
  have hfind : standard.findOperator? (a :: (w ++ x :: u)) none
      = standard.findOperator? (a :: (w ++ y :: v)) none := by
    rw [← List.cons_append, ← List.cons_append, findOperator?_mark hx, findOperator?_mark hy]
  have hbar : ((w ++ x :: u).head? != some '|') = ((w ++ y :: v).head? != some '|') := by
    cases w with
    | cons b w => rfl
    | nil =>
        have hall : ∀ x ∈ marks, (some x != some '|') = true := by decide
        exact (hall x hx).trans (hall y hy).symm
  have hsign : (spaced && flags.inMatrix && ((a == '-' || a == '+')
        && (w ++ x :: u).head?.any (!isBlank ·)))
      = (spaced && flags.inMatrix && ((a == '-' || a == '+')
        && (w ++ y :: v).head?.any (!isBlank ·))) := by
    cases w with
    | cons b w => rfl
    | nil =>
        rcases hspaced with rfl | ⟨c, hc, hcloser⟩
        · rfl
        · rw [List.mem_singleton.mp hc] at hcloser
          have hall : ∀ c ∈ closers, (c == '-' || c == '+') = false := by decide
          rw [hall a hcloser, Bool.false_and, Bool.false_and]
  simp only [endsOperators, List.cons_append, helse, hfind, hbar]
  rw [Bool.and_or_distrib_left, Bool.and_or_distrib_left, hsign]

/-! ### Forms -/

/-- A colon stands for a whole argument where a comma or a bracket comes next, and the bracket that
closes the argument is still ahead. -/
theorem everything_mark {a : Char} (hcolon : flags.inArguments = false ∨ ∃ c ∈ a :: w, c ∈ closers)
    (u v : List Char) :
    Form.everything.accepts (a :: w ++ u) flags = Form.everything.accepts (a :: w ++ v) flags := by
  by_cases ha : a = ':'
  · subst ha
    rcases hcolon with harguments | ⟨c, hc, hcloser⟩
    · simp [Form.everything, harguments]
    · have hblank : ∀ c ∈ closers, isBlank c = false ∧ c ≠ ':' := by decide
      have hmem : c ∈ w := (List.mem_cons.mp hc).resolve_left (hblank c hcloser).2
      have hmore : w.dropWhile isBlank ≠ [] := by
        intro hnil
        have hall := List.dropWhile_eq_nil_iff.mp hnil c hmem
        rw [(hblank c hcloser).1] at hall
        cases hall
      have hhead (z : List Char) :
          ((w ++ z).dropWhile isBlank).head? = (w.dropWhile isBlank).head? := by
        rw [List.dropWhile_append, if_neg (by simpa using hmore), head?_append_of_ne_nil hmore]
      simp only [Form.everything, List.cons_append, hhead]
  · simp [Form.everything, ha]

theorem accepts_mark {f : Nat × Form} (hf : f ∈ Form.standard) (hx : x ∈ marks) (hy : y ∈ marks)
    (hw : w ≠ []) (hcolon : flags.inArguments = false ∨ ∃ c ∈ w, c ∈ closers) :
    f.2.accepts (w ++ x :: u) flags = f.2.accepts (w ++ y :: v) flags := by
  obtain ⟨a, w, rfl⟩ := List.exists_cons_of_ne_nil hw
  have hword {word : List Char} (hword : ∀ x ∈ marks, x ∉ word) :
      startsWithWord word (a :: w ++ x :: u) = startsWithWord word (a :: w ++ y :: v) := by
    rw [startsWithWord_fence (fence_mark hx) (hword x hx),
      startsWithWord_fence (fence_mark hy) (hword y hy)]
  simp only [Form.standard, List.mem_cons, List.not_mem_nil, or_false] at hf
  rcases hf with rfl | rfl | rfl | rfl | rfl | rfl | rfl | rfl | rfl | rfl | rfl | rfl | rfl
  -- `if`, `while`, `for` and `end`
  · exact hword (by decide)
  · exact hword (by decide)
  · exact hword (by decide)
  · exact hword (by decide)
  · exact everything_mark hcolon _ _
  · -- a number
    cases w with
    | cons b w => by_cases ha : a = '.' <;> simp [Form.number, ha]
    | nil =>
        have hx := (fence_mark hx).digit
        have hy := (fence_mark hy).digit
        by_cases ha : a = '.' <;> simp [Form.number, ha, hx, hy]
  · rfl
  · have hreserved : ∀ word ∈ reservedWords, ∀ x ∈ marks, x ∉ word := by decide
    have hany : reservedWords.any (startsWithWord · (a :: w ++ x :: u))
        = reservedWords.any (startsWithWord · (a :: w ++ y :: v)) := by
      rw [Bool.eq_iff_iff]
      simp only [List.any_eq_true]
      exact exists_congr fun word => and_congr_right fun hmem => by rw [hword (hreserved word hmem)]
    simp only [Form.identifier, List.cons_append, List.head?_cons] at hany ⊢
    rw [hany]
  · rfl
  · rfl
  · -- a bar
    cases w with
    | cons b w => rfl
    | nil =>
        have hall : ∀ x ∈ marks, (some x != some '|') = true := by decide
        simp [Form.abs, hall x hx, hall y hy]
  · rfl
  · rfl

theorem findForm?_mark (hx : x ∈ marks) (hy : y ∈ marks) (hw : w ≠ [])
    (hcolon : flags.inArguments = false ∨ ∃ c ∈ w, c ∈ closers) :
    standard.findForm? (w ++ x :: u) flags = standard.findForm? (w ++ y :: v) flags := by
  have hfind : Form.standard.find? (·.2.accepts (w ++ x :: u) flags)
      = Form.standard.find? (·.2.accepts (w ++ y :: v) flags) :=
    List.find?_congr fun f hf => accepts_mark hf hx hy hw hcolon
  exact congrArg (Option.map (·.2)) hfind

/-! ### The start of an element -/

/-- Signs and negations. -/
def leadingMarks : List Char := ['+', '-', '!', '~']

theorem leadingOp?_isSome_iff {a : Char} :
    (Form.leadingOp? (some a)).isSome = true ↔ a ∈ leadingMarks := by
  simp only [leadingMarks, List.mem_cons, List.not_mem_nil, or_false]
  constructor
  · intro h
    unfold Form.leadingOp? at h
    split at h <;> simp_all
  · rintro (rfl | rfl | rfl | rfl) <;> rfl

/-- Whether the text may start an operand, as far as one or two characters tell. -/
def startsOperand : List Char → Bool
  | [] => false
  | a :: v =>
    isWordStart a || a.isDigit || (a == '.' && v.head?.any Char.isDigit)
      || (a == '|' && v.head? != some '|') || a ∈ ['"', '(', '[', '\x7b'] || a ∈ leadingMarks

theorem startsOperand_of_findForm? {form : Form}
    (h : standard.findForm? u Mode.matrix.flags = some form) : startsOperand u = true := by
  obtain ⟨⟨priority, hmem⟩, haccepts⟩ := findForm?_eq_some h
  have hkeyword {word : List Char} (hword : word.head?.any isWordStart = true)
      (hstarts : startsWithWord word u = true) : startsOperand u = true := by
    obtain ⟨rest, rfl⟩ := exists_of_startsWithWord hstarts
    obtain ⟨a, word, rfl⟩ := List.exists_cons_of_ne_nil (l := word) (by rintro rfl; cases hword)
    have ha : isWordStart a = true := hword
    simp [startsOperand, ha]
  have hhead {x : Char} (hx : x ∈ ['"', '(', '[', '\x7b']) (hu : u.head? = some x) :
      startsOperand u = true := by
    obtain ⟨v, rfl⟩ := List.head?_eq_some_iff.mp hu
    simp only [startsOperand, decide_eq_true hx, Bool.or_true, Bool.true_or]
  simp only [Form.standard, List.mem_cons, List.not_mem_nil, or_false, Prod.mk.injEq] at hmem
  rcases hmem with ⟨-, rfl⟩ | ⟨-, rfl⟩ | ⟨-, rfl⟩ | ⟨-, rfl⟩ | ⟨-, rfl⟩ | ⟨-, rfl⟩ | ⟨-, rfl⟩
    | ⟨-, rfl⟩ | ⟨-, rfl⟩ | ⟨-, rfl⟩ | ⟨-, rfl⟩ | ⟨-, rfl⟩ | ⟨-, rfl⟩
  · exact hkeyword (by decide) haccepts
  · exact hkeyword (by decide) haccepts
  · exact hkeyword (by decide) haccepts
  · exact hkeyword (by decide) haccepts
  · cases haccepts
  · unfold Form.number at haccepts
    dsimp only at haccepts
    split at haccepts
    · simp [startsOperand, haccepts]
    · simp [startsOperand, haccepts]
    · cases haccepts
  · exact hhead (by decide) (of_decide_eq_true haccepts)
  · have hstart := (Bool.and_eq_true_iff.mp haccepts).1
    cases u with
    | nil => cases hstart
    | cons a v =>
        have ha : isWordStart a = true := hstart
        simp [startsOperand, ha]
  · exact hhead (by decide) (of_decide_eq_true haccepts)
  · exact hhead (by decide) (of_decide_eq_true haccepts)
  · obtain ⟨hbar, hsecond⟩ := Bool.and_eq_true_iff.mp haccepts
    obtain ⟨v, rfl⟩ := List.head?_eq_some_iff.mp (of_decide_eq_true hbar)
    have hsecond : (v.head? != some '|') = true := hsecond
    simp [startsOperand, hsecond]
  · cases u with
    | nil => cases haccepts
    | cons a v =>
        have hleading := leadingOp?_isSome_iff.mp haccepts
        simp only [startsOperand, decide_eq_true hleading, Bool.or_true]
  · exact hhead (by decide) (of_decide_eq_true haccepts)

/-- Whether a symbol can be told from the start of an operand by its first two characters. -/
def isUnlikeOperand : List Char → Bool
  | [] => false
  | a :: v =>
    !isWordStart a && !a.isDigit && a ∉ ['"', '(', '[', '\x7b', '+', '-']
      && (a != '.' || v.head?.any (!Char.isDigit ·)) && (a != '|' || v.head? == some '|')
      && (a ∉ ['!', '~'] || v.head? == some '=')

/-- An operand does not start with such a symbol, unless it is a negation in front of `=`. -/
theorem not_startsOperand_of_isUnlike {a : Char} {symbol d : List Char}
    (hunlike : isUnlikeOperand (a :: symbol) = true)
    (hnot : a ∈ ['!', '~'] → (symbol ++ d).head? ≠ some '=') :
    ¬startsOperand (a :: (symbol ++ d)) = true := by
  intro hstarts
  have hhead {p : Char → Bool} (h : symbol.head?.any p = true) :
      ∃ c, p c = true ∧ (symbol ++ d).head? = some c := by
    obtain ⟨c, hc, hp⟩ := (Option.any_eq_true _ _).mp h
    obtain ⟨rest, rfl⟩ := List.head?_eq_some_iff.mp hc
    exact ⟨c, hp, rfl⟩
  have hsame {c : Char} (h : symbol.head? = some c) : (symbol ++ d).head? = some c := by
    obtain ⟨rest, rfl⟩ := List.head?_eq_some_iff.mp h
    rfl
  simp only [isUnlikeOperand, Bool.and_eq_true, Bool.or_eq_true, Bool.not_eq_true',
    decide_eq_true_eq, bne_iff_ne, beq_iff_eq] at hunlike
  obtain ⟨⟨⟨⟨⟨hword, hdigit⟩, hmem⟩, hpoint⟩, hbar⟩, hequals⟩ := hunlike
  simp only [startsOperand, hword, hdigit, Bool.false_or, Bool.or_eq_true, Bool.and_eq_true,
    beq_iff_eq, bne_iff_ne, decide_eq_true_eq] at hstarts
  rcases hstarts with ((⟨rfl, hsecond⟩ | ⟨rfl, hsecond⟩) | hstart) | hstart
  · obtain ⟨c, hc, hrest⟩ := hhead (hpoint.resolve_left (· rfl))
    rw [hrest, Option.any_some] at hsecond
    simp [hsecond] at hc
  · exact hsecond (hsame (hbar.resolve_left (· rfl)))
  · have hopening : ∀ b ∈ ['"', '(', '[', '\x7b'], b ∈ ['"', '(', '[', '\x7b', '+', '-'] := by
      decide
    exact hmem (hopening a hstart)
  · have hmarks : ∀ b ∈ leadingMarks, b ∉ ['"', '(', '[', '\x7b', '+', '-'] → b ∈ ['!', '~'] := by
      decide
    have hmark := hmarks a hstart hmem
    exact hnot hmark (hsame (hequals.resolve_left (· hmark)))

/-- Where an operand starts no operator that joins operands is found, but for signs and for what
would be a comparison. -/
theorem joins_of_startsOperand {a : Char} {found : OperatorMatch}
    (hstarts : startsOperand (a :: v) = true) (hsign : a ∉ ['+', '-'])
    (hnot : a ∈ ['!', '~'] → v.head? ≠ some '=')
    (hfound : standard.findOperator? (a :: v) none = some found) :
    found.operator.isJoining = false := by
  obtain ⟨hop, -⟩ := findOperator?_eq_some hfound
  have hprefix : found.operator.symbol.isPrefixOf (a :: v) = true := by
    unfold findOperator? at hfound
    split at hfound
    · rename_i op hfind
      cases hfound
      simpa using List.find?_some hfind
    · cases hfound
  have hall : ∀ op ∈ Operator.standard, op.isJoining = true →
      isUnlikeOperand op.symbol = true ∨ op.symbol.head?.any (· ∈ ['+', '-']) = true := by decide
  rw [← Bool.not_eq_true]
  intro hjoining
  obtain ⟨d, hd⟩ := List.isPrefixOf_iff_prefix.mp hprefix
  rcases hall _ (mem_standard_operators.mp hop) hjoining with hunlike | hsigned
  · cases hsymbol : found.operator.symbol with
    | nil =>
        rw [hsymbol] at hunlike
        cases hunlike
    | cons b symbol =>
        rw [hsymbol] at hunlike
        rw [hsymbol, List.cons_append, List.cons.injEq] at hd
        obtain ⟨rfl, rfl⟩ := hd
        exact not_startsOperand_of_isUnlike hunlike hnot hstarts
  · obtain ⟨b, hb, hmem⟩ := (Option.any_eq_true _ _).mp hsigned
    obtain ⟨symbol, hsymbol⟩ := List.head?_eq_some_iff.mp hb
    rw [hsymbol, List.cons_append, List.cons.injEq] at hd
    exact hsign (hd.1 ▸ of_decide_eq_true hmem)

/-- What a compact text starts with if an element is read of it: an operand, and behind a sign or a
negation another one. -/
structure Opens (e : List Char) : Prop where
  compact : Compact (.code 0) e
  operand : (standard.findForm? (e ++ [']']) Mode.matrix.flags).isSome = true
  behind (x : Char) (e' : List Char) : e = x :: e' → x ∈ leadingMarks →
    (standard.findForm? (e' ++ [']']) Mode.matrix.flags).isSome = true

namespace Opens

variable {e : List Char}

theorem ne_nil (h : Opens e) : e ≠ [] := by
  rintro rfl
  exact absurd h.operand (by decide)

theorem starts (h : Opens e) (hy : y ∈ marks) (v : List Char) :
    startsOperand (e ++ y :: v) = true := by
  obtain ⟨a, e', rfl⟩ := List.exists_cons_of_ne_nil h.ne_nil
  obtain ⟨form, hform⟩ := Option.isSome_iff_exists.mp h.operand
  rw [findForm?_mark (by decide) hy (List.cons_ne_nil _ _) (.inl rfl) (v := v)] at hform
  exact startsOperand_of_findForm? hform

/-- The first character has a meaning, and it separates and closes nothing. -/
theorem head (h : Opens e) : ∃ a e', e = a :: e' ∧ a ∉ triggers ∧ a ∉ [']', ';', ','] := by
  obtain ⟨a, e', rfl⟩ := List.exists_cons_of_ne_nil h.ne_nil
  refine ⟨a, e', rfl, fun hmem => ?_, fun hmem => ?_⟩
  · have hoperand := h.operand
    rw [List.cons_append, findForm?_trigger hmem] at hoperand
    cases hoperand
  · have hstarts := h.starts (y := ']') (by decide) []
    have hall : ∀ a ∈ [']', ';', ','], isWordStart a = false ∧ a.isDigit = false ∧ a ≠ '.'
        ∧ a ≠ '|' ∧ a ∉ ['"', '(', '[', '\x7b'] ∧ a ∉ leadingMarks := by decide
    obtain ⟨hword, hdigit, hpoint, hbar, hopening, hleading⟩ := hall a hmem
    rw [List.cons_append] at hstarts
    simp only [startsOperand, hword, hdigit, beq_false_of_ne hpoint, beq_false_of_ne hbar,
      hopening, hleading, Bool.false_and, Bool.or_false, decide_false, Bool.false_eq_true]
      at hstarts

/-- Behind a sign or a negation the text goes on, with a character that starts an operand. -/
theorem exists_behind {a : Char} {e' : List Char} (h : Opens (a :: e')) (ha : a ∈ leadingMarks) :
    ∃ c e'', e' = c :: e'' ∧ isSeparator c = false ∧ c ≠ '=' := by
  have hoperand := h.behind a e' rfl ha
  rcases e' with _ | ⟨c, e'⟩
  · exact absurd hoperand (by decide)
  · refine ⟨c, e', rfl, ?_, ?_⟩
    · have hall : ∀ x ∈ leadingMarks, x ∉ delimiters := by decide
      have hnext := h.compact.next
      rw [Scan.next_of_not_mem (hall a ha)] at hnext
      exact hnext.2.1 rfl
    · rintro rfl
      obtain ⟨form, hform⟩ := Option.isSome_iff_exists.mp hoperand
      have hstarts := startsOperand_of_findForm? hform
      have hequals : startsOperand ('=' :: (e' ++ [']'])) = false := by
        have hword : isWordStart '=' = false := by decide
        simp [startsOperand, hword, leadingMarks]
      rw [List.cons_append, hequals] at hstarts
      cases hstarts

/-- Behind a blank such a text does not continue what stands in front. -/
theorem endsOperators (h : Opens e) (hy : y ∈ marks) (v : List Char) :
    standard.endsOperators Mode.matrix.flags true (e ++ y :: v) = true := by
  have hstarts := h.starts hy v
  obtain ⟨a, e', rfl⟩ := List.exists_cons_of_ne_nil h.ne_nil
  have hlast : ((a == '-' || a == '+') && (e' ++ y :: v).head?.any (!isBlank ·)
      || !(standard.findOperator? (a :: (e' ++ y :: v)) none).any (·.operator.isJoining))
        = true := by
    by_cases hsign : a ∈ ['+', '-']
    · have hsigns : ∀ a ∈ ['+', '-'], a ∈ leadingMarks := by decide
      obtain ⟨c, e'', rfl, hc, -⟩ := h.exists_behind (hsigns a hsign)
      simp only [isSeparator, Bool.or_eq_false_iff] at hc
      simp only [List.mem_cons, List.not_mem_nil, or_false] at hsign
      rcases hsign with rfl | rfl <;> simp [hc.1.1]
    · have hnot : a ∈ ['!', '~'] → (e' ++ y :: v).head? ≠ some '=' := by
        intro hmark
        have hnegations : ∀ a ∈ ['!', '~'], a ∈ leadingMarks := by decide
        obtain ⟨c, e'', rfl, -, hc⟩ := h.exists_behind (hnegations a hmark)
        simpa using hc
      rw [Bool.or_eq_true]
      right
      cases hfound : standard.findOperator? (a :: (e' ++ y :: v)) none with
      | none => rfl
      | some found => simp [joins_of_startsOperand hstarts hsign hnot hfound]
  have hmatrix : Mode.matrix.flags.inMatrix = true := rfl
  simp only [List.cons_append, Grammar.endsOperators, hlast, hmatrix, Bool.and_true, Bool.or_true]

end Opens

end Grammar

end MatrixScript
