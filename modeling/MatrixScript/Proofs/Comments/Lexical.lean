import MatrixScript.Proofs.Comments.Gaps
import MatrixScript.Proofs.Reading.Operators

/-!
# What is found in front of a gap

Where the cursors face each other in front of the gap, the same forms and operators are found in
both texts. A blank and a slash are no part of words and numbers, and a slash continues no operator
but one that starts with a point. Two decisions look for a blank instead: whether a colon is a whole
argument, and whether a sign starts a new column. That the gap is clear is what settles these.
-/

namespace MatrixScript

theorem fence_blank : Fence ' ' := by constructor <;> decide

theorem fence_slash : Fence '/' := by constructor <;> decide

/-- The text that both readings see in front of the gap. -/
structure Gap.Ahead (g : Gap) (w : List Char) : Prop where
  clear : g.Clear
  suffix : w <:+ g.before
  nonempty : w ≠ []

namespace Gap.Ahead

variable {g : Gap} {w u : List Char}

theorem of_before (hg : g.Clear) {passed ahead : List Char} {x : Char}
    (hbefore : g.before = passed ++ x :: ahead) : g.Ahead (x :: ahead) :=
  ⟨hg, ⟨passed, hbefore.symm⟩, List.cons_ne_nil _ _⟩

theorem unmarked (h : g.Ahead w) : Unmarked w := fun x hx => h.clear.before x (h.suffix.subset hx)

theorem slash (h : g.Ahead w) : '/' ∉ w := fun hmem => h.unmarked '/' hmem (by decide)

theorem point (h : g.Ahead w) : w ≠ ['.'] := by
  rintro rfl
  obtain ⟨passed, hpassed⟩ := h.suffix
  apply h.clear.point
  rw [← hpassed, List.getLast?_append, List.getLast?_singleton, Option.some_or]

theorem head?_eq (h : g.Ahead w) (x : Char) : (w ++ x :: u).head? = w.head? := by
  cases w with
  | nil => exact absurd rfl h.nonempty
  | cons a w => rfl

/-! ### Operators -/

theorem symbol_slash (h : g.Ahead w) {op : Operator} (hop : op ∈ Grammar.standard.operators) :
    op.symbol.isPrefixOf (w ++ '/' :: u) = op.symbol.isPrefixOf w := by
  have hall : ∀ op ∈ Operator.standard, '/' ∉ op.symbol ∨ op.symbol = ['/']
      ∨ op.symbol = ['/', '='] ∨ op.symbol = ['.', '/'] := by decide
  have hslash := h.slash
  have hfirst (a : Char) (v : List Char) (hw : w = a :: v) : ('/' == a) = false := by
    rw [hw, List.mem_cons, not_or] at hslash
    exact beq_false_of_ne hslash.1
  rcases hall op (Grammar.mem_standard_operators.mp hop) with hop | hop | hop | hop
  · exact isPrefixOf_fence hop
  · rw [hop]
    cases w with
    | nil => exact absurd rfl h.nonempty
    | cons a w => simp only [List.cons_append, List.isPrefixOf, hfirst a w rfl, Bool.false_and]
  · rw [hop]
    cases w with
    | nil => exact absurd rfl h.nonempty
    | cons a w => simp only [List.cons_append, List.isPrefixOf, hfirst a w rfl, Bool.false_and]
  · rw [hop]
    rcases w with _ | ⟨a, _ | ⟨b, w⟩⟩
    · exact absurd rfl h.nonempty
    · have ha : ('.' == a) = false := beq_false_of_ne fun ha => h.point (by rw [ha])
      simp only [List.cons_append, List.isPrefixOf, ha, Bool.false_and]
    · simp only [List.mem_cons, not_or] at hslash
      have hb : ('/' == b) = false := beq_false_of_ne hslash.2.1
      simp only [List.cons_append, List.isPrefixOf, hb, Bool.false_and]

theorem symbol_blank {op : Operator} (hop : op ∈ Grammar.standard.operators) :
    op.symbol.isPrefixOf (w ++ ' ' :: u) = op.symbol.isPrefixOf w := by
  have hall : ∀ op ∈ Operator.standard, ' ' ∉ op.symbol := by decide
  exact isPrefixOf_fence (hall op (Grammar.mem_standard_operators.mp hop))

theorem findOperator?_eq (h : g.Ahead w) (v : List Char) (premise : Option (List Char)) :
    Grammar.standard.findOperator? (w ++ '/' :: u) premise
      = Grammar.standard.findOperator? (w ++ ' ' :: v) premise := by
  have hfind : ∀ ops : List Operator, (∀ op ∈ ops, op ∈ Grammar.standard.operators) →
      ops.find? (·.symbol.isPrefixOf (w ++ '/' :: u))
        = ops.find? (·.symbol.isPrefixOf (w ++ ' ' :: v)) := by
    intro ops hops
    induction ops with
    | nil => rfl
    | cons op ops ih =>
        rw [List.find?_cons, List.find?_cons, h.symbol_slash (hops op List.mem_cons_self),
          symbol_blank (hops op List.mem_cons_self),
          ih fun op hop => hops op (List.mem_cons_of_mem _ hop)]
  unfold Grammar.findOperator?
  rw [hfind _ fun _ hop => hop]

theorem startsWithWord_eq (v : List Char) {word : List Char} (hword : ∀ x ∈ word, isWordChar x = true) :
    startsWithWord word (w ++ '/' :: u) = startsWithWord word (w ++ ' ' :: v) := by
  have hslash : '/' ∉ word := fun hmem => absurd (hword _ hmem) (by decide)
  have hblank : ' ' ∉ word := fun hmem => absurd (hword _ hmem) (by decide)
  rw [startsWithWord_fence fence_slash hslash, startsWithWord_fence fence_blank hblank]

/-- The character after the first, or else what stands in the gap. -/
theorem tail_head? (h : g.Ahead w) (v : List Char) :
    (w ++ '/' :: u).tail.head? = (w ++ ' ' :: v).tail.head?
      ∨ ∃ x, w = [x] := by
  rcases w with _ | ⟨a, _ | ⟨b, w⟩⟩
  · exact absurd rfl h.nonempty
  · exact .inr ⟨a, rfl⟩
  · exact .inl rfl

/-- Operators end at the same places, unless a sign right before the gap is one of a column. -/
theorem endsOperators_eq (h : g.Ahead w) (v : List Char) (flags : Flags) (spaced : Bool)
    (hsign : spaced = true → flags.inMatrix = true → ∀ x, w = [x] → ¬(x = '-' ∨ x = '+')) :
    Grammar.standard.endsOperators flags spaced (w ++ '/' :: u)
      = Grammar.standard.endsOperators flags spaced (w ++ ' ' :: v) := by
  cases w with
  | nil => exact absurd rfl h.nonempty
  | cons a w =>
      have hword : ∀ x ∈ "else".toList, isWordChar x = true := by decide
      have helse := startsWithWord_eq (w := a :: w) (u := u) v hword
      have hfind := h.findOperator?_eq (u := u) v none
      simp only [List.cons_append] at helse hfind
      simp only [Grammar.endsOperators, List.cons_append, helse, hfind]
      cases w with
      | cons b w => rfl
      | nil =>
          have hbar : ((some '/' : Option Char) != some '|') = (some ' ' != some '|') := by decide
          simp only [List.nil_append, List.head?_cons, hbar]
          by_cases hcolumn : spaced = true ∧ flags.inMatrix = true
          · have hplain := not_or.mp (hsign hcolumn.1 hcolumn.2 a rfl)
            have hminus : (a == '-') = false := beq_false_of_ne hplain.1
            have hplus : (a == '+') = false := beq_false_of_ne hplain.2
            simp only [hminus, hplus, Bool.or_self, Bool.false_and]
          · have hfalse : (spaced && flags.inMatrix) = false := by
              rw [← Bool.not_eq_true, Bool.and_eq_true]
              exact hcolumn
            simp only [hfalse, Bool.false_and]

/-! ### Forms -/

theorem colon_unselected (h : g.Ahead (':' :: w)) (hblank : ∀ x ∈ w, isBlank x = true) :
    (g.after.dropWhile isBlank).head? ≠ some ',' ∧ (g.after.dropWhile isBlank).head? ≠ some ')' := by
  obtain ⟨passed, hpassed⟩ := h.suffix
  have hcolon : (g.before.reverse.dropWhile isBlank).head? = some ':' := by
    have hreverse : ∀ x ∈ w.reverse, isBlank x = true := fun x hx =>
      hblank x (List.mem_reverse.mp hx)
    rw [← hpassed, List.reverse_append, List.reverse_cons, List.append_assoc,
      List.dropWhile_append_of_pos hreverse]
    rfl
  exact not_or.mp fun hselects => h.clear.colon ⟨hcolon, hselects⟩

theorem everything_eq (h : g.Ahead w) (flags : Flags) :
    Form.everything.accepts (w ++ '/' :: u) flags
      = Form.everything.accepts (w ++ ' ' :: g.after) flags := by
  cases w with
  | nil => exact absurd rfl h.nonempty
  | cons a w =>
      by_cases ha : a = ':'
      · subst ha
        have hslash : isBlank '/' = false := by decide
        have hspace : isBlank ' ' = true := by decide
        simp only [Form.everything, List.cons_append, dropWhile_fence hslash]
        cases hdrop : w.dropWhile isBlank with
        | cons b v =>
            have happend : (w ++ ' ' :: g.after).dropWhile isBlank = b :: v ++ ' ' :: g.after := by
              rw [List.dropWhile_append, hdrop]
              rfl
            rw [happend]
            rfl
        | nil =>
            have hall : ∀ x ∈ w, isBlank x = true := List.dropWhile_eq_nil_iff.mp hdrop
            have happend : (w ++ ' ' :: g.after).dropWhile isBlank = g.after.dropWhile isBlank := by
              rw [List.dropWhile_append_of_pos hall, List.dropWhile_cons_of_pos hspace]
            rw [happend]
            obtain ⟨hcomma, hparen⟩ := h.colon_unselected hall
            cases hhead : (g.after.dropWhile isBlank).head? with
            | none => rfl
            | some y =>
                rw [hhead] at hcomma hparen
                have hy : y ≠ ',' ∧ y ≠ ')' :=
                  ⟨fun h => hcomma (congrArg some h), fun h => hparen (congrArg some h)⟩
                simp [hy.1, hy.2]
      · simp [Form.everything, ha]

theorem accepts_eq (h : g.Ahead w) {f : Nat × Form} (hf : f ∈ Form.standard) (flags : Flags) :
    f.2.accepts (w ++ '/' :: u) flags = f.2.accepts (w ++ ' ' :: g.after) flags := by
  have hkeyword (word : List Char) (parts : Surroundings → Reading (NodeKind NodeId))
      (hword : ∀ x ∈ word, isWordChar x = true) :
      (Form.keyword word parts).accepts (w ++ '/' :: u) flags
        = (Form.keyword word parts).accepts (w ++ ' ' :: g.after) flags :=
    startsWithWord_eq g.after hword
  have hhead : (w ++ '/' :: u).head? = (w ++ ' ' :: g.after).head? := by
    rw [h.head?_eq, h.head?_eq]
  simp only [Form.standard, List.mem_cons, List.not_mem_nil, or_false] at hf
  rcases hf with rfl | rfl | rfl | rfl | rfl | rfl | rfl | rfl | rfl | rfl | rfl | rfl | rfl
  -- `if`, `while`, `for` and `end`
  · exact hkeyword _ _ (by decide)
  · exact hkeyword _ _ (by decide)
  · exact hkeyword _ _ (by decide)
  · exact hkeyword _ _ (by decide)
  · exact h.everything_eq flags
  · rcases w with _ | ⟨a, _ | ⟨b, w⟩⟩
    · exact absurd rfl h.nonempty
    · have ha : a ≠ '.' := fun ha => h.point (by rw [ha])
      simp [Form.number, ha]
    · by_cases ha : a = '.' <;> simp [Form.number, ha]
  · simp only [Form.text, hhead]
  · have hreserved : ∀ word ∈ reservedWords, ∀ x ∈ word, isWordChar x = true := by decide
    have hany : reservedWords.any (startsWithWord · (w ++ '/' :: u))
        = reservedWords.any (startsWithWord · (w ++ ' ' :: g.after)) := by
      rw [Bool.eq_iff_iff]
      simp only [List.any_eq_true]
      exact exists_congr fun word => and_congr_right fun hword => by
        rw [startsWithWord_eq g.after (hreserved word hword)]
    simp only [Form.identifier, hhead, hany]
  · simp only [Form.group, hhead]
  · simp only [Form.matrix, hhead]
  · rcases h.tail_head? (u := u) g.after with htail | ⟨x, rfl⟩
    · simp only [Form.abs, hhead, htail]
    · have hbar : ((some '/' : Option Char) != some '|') = (some ' ' != some '|') := by decide
      simp [Form.abs, hbar]
  · simp only [Form.leading, hhead]
  · simp only [Form.block, hhead]

theorem findForm?_eq (h : g.Ahead w) (flags : Flags) :
    Grammar.standard.findForm? (w ++ '/' :: u) flags
      = Grammar.standard.findForm? (w ++ ' ' :: g.after) flags := by
  have hfind : ∀ forms : List (Nat × Form), (∀ f ∈ forms, f ∈ Form.standard) →
      forms.find? (·.2.accepts (w ++ '/' :: u) flags)
        = forms.find? (·.2.accepts (w ++ ' ' :: g.after) flags) := by
    intro forms hforms
    induction forms with
    | nil => rfl
    | cons f forms ih =>
        rw [List.find?_cons, List.find?_cons, h.accepts_eq (hforms f List.mem_cons_self),
          ih fun f hf => hforms f (List.mem_cons_of_mem _ hf)]
  exact congrArg (Option.map (·.2)) (hfind Form.standard fun _ hf => hf)

end Gap.Ahead

/-! ### At the cursors -/

namespace Gap

variable {g : Gap} {c c' : Cursor}

/-- What the cursors see: the same text, or the same text up to the gap. -/
theorem Faces.rest_cases (hg : g.Clear) (h : g.Faces c c') :
    c'.rest = c.rest ∨ ∃ w u, g.Ahead w ∧ c.rest = w ++ ' ' :: g.after ∧ c'.rest = w ++ '/' :: u := by
  cases h with
  | before passed x ahead hbefore =>
      refine .inr ⟨x :: ahead, '*' :: (g.comment ++ ['*', '/']) ++ g.after, .of_before hg hbefore,
        rfl, ?_⟩
      simp [mark]
  | after passed ahead hafter => exact .inl rfl

theorem Faces.findForm?_eq (hg : g.Clear) (h : g.Faces c c') (flags : Flags) :
    Grammar.standard.findForm? c'.rest flags = Grammar.standard.findForm? c.rest flags := by
  rcases h.rest_cases hg with hrest | ⟨w, u, hahead, hrest, hrest'⟩
  · rw [hrest]
  · rw [hrest, hrest', hahead.findForm?_eq]

theorem Faces.findOperator?_eq (hg : g.Clear) (h : g.Faces c c') (premise : Option (List Char)) :
    Grammar.standard.findOperator? c'.rest premise
      = Grammar.standard.findOperator? c.rest premise := by
  rcases h.rest_cases hg with hrest | ⟨w, u, hahead, hrest, hrest'⟩
  · rw [hrest]
  · rw [hrest, hrest', hahead.findOperator?_eq]

theorem Meets.startsWithWord_eq (h : g.Meets c c') {word : List Char}
    (hword : ∀ x ∈ word, isWordChar x = true) :
    startsWithWord word c'.rest = startsWithWord word c.rest := by
  cases h with
  | before passed ahead hbefore =>
      have hmark : ahead ++ g.mark ++ g.after
          = ahead ++ '/' :: ('*' :: (g.comment ++ ['*', '/']) ++ g.after) := by simp [mark]
      rw [hmark, Ahead.startsWithWord_eq g.after hword]
  | after passed ahead hafter => rfl

theorem Faces.endsOperators_eq (hg : g.Clear) (h : g.Faces c c') (flags : Flags) (spaced : Bool)
    (hsign : spaced = true → flags.inMatrix = true → ∀ x, c.rest = x :: ' ' :: g.after →
      ¬(x = '-' ∨ x = '+')) :
    Grammar.standard.endsOperators flags spaced c'.rest
      = Grammar.standard.endsOperators flags spaced c.rest := by
  rcases h.rest_cases hg with hrest | ⟨w, u, hahead, hrest, hrest'⟩
  · rw [hrest]
  · rw [hrest']
    rw [hrest] at hsign ⊢
    refine hahead.endsOperators_eq _ flags spaced fun hspaced hmatrix x hx => ?_
    exact hsign hspaced hmatrix x (by rw [hx]; rfl)

end Gap

end MatrixScript
