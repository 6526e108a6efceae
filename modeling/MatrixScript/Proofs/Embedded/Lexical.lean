import MatrixScript.Proofs.Numerals.Scanning
import MatrixScript.Proofs.Reading.Expressions
import MatrixScript.Grammar.Standard
import Mathlib.Tactic.SplitIfs

/-!
# What a fence hides

Some characters belong to no word and to no number. Whatever word or number the reader looks for in
front of one is therefore found, or not, without regard to what stands behind it. A closing
parenthesis also belongs to no operator and to no comment mark.
-/

namespace MatrixScript

/-- A character that is part of no word and of no number. -/
structure Fence (x : Char) : Prop where
  word : isWordChar x = false
  digit : x.isDigit = false
  point : x ≠ '.'
  plus : x ≠ '+'
  minus : x ≠ '-'

theorem fence_paren : Fence ')' := by constructor <;> decide

variable {w u : List Char} {x : Char}

theorem takeWhile_fence {p : Char → Bool} (hp : p x = false) :
    (w ++ x :: u).takeWhile p = w.takeWhile p := by
  induction w with
  | nil => simp [hp]
  | cons a w ih => by_cases ha : p a <;> simp [ha, ih]

theorem dropWhile_fence {p : Char → Bool} (hp : p x = false) :
    (w ++ x :: u).dropWhile p = w.dropWhile p ++ x :: u := by
  induction w with
  | nil => simp [hp]
  | cons a w ih => by_cases ha : p a <;> simp [ha, ih]

theorem isPrefixOf_fence {word : List Char} (hword : x ∉ word) :
    word.isPrefixOf (w ++ x :: u) = word.isPrefixOf w := by
  induction word generalizing w with
  | nil => simp
  | cons a word ih =>
      rw [List.mem_cons, not_or] at hword
      cases w with
      | nil => simp [List.isPrefixOf, Ne.symm hword.1]
      | cons b w => simp [List.isPrefixOf, ih hword.2]

theorem startsWithWord_fence (hx : Fence x) {word : List Char} (hword : x ∉ word) :
    startsWithWord word (w ++ x :: u) = startsWithWord word w := by
  unfold startsWithWord
  rw [isPrefixOf_fence hword]
  by_cases hw : word.isPrefixOf w = true
  · obtain ⟨v, rfl⟩ := List.isPrefixOf_iff_prefix.mp hw
    rw [List.append_assoc, List.drop_left, List.drop_left]
    cases v with
    | nil => simp [hx.word]
    | cons a v => rfl
  · simp [hw]

/-! ### Operators -/

theorem operator_symbol_fence {op : Operator} (hop : op ∈ Grammar.standard.operators) :
    op.symbol.isPrefixOf (w ++ ')' :: u) = op.symbol.isPrefixOf w := by
  have hall : ∀ op ∈ Grammar.standard.operators, ')' ∉ op.symbol := by decide
  exact isPrefixOf_fence (hall op hop)

theorem findOperator?_fence (premise : Option (List Char)) :
    Grammar.standard.findOperator? (w ++ ')' :: u) premise
      = Grammar.standard.findOperator? w premise := by
  have hfind : ∀ ops : List Operator, (∀ op ∈ ops, op ∈ Grammar.standard.operators) →
      ops.find? (·.symbol.isPrefixOf (w ++ ')' :: u)) = ops.find? (·.symbol.isPrefixOf w) := by
    intro ops hops
    induction ops with
    | nil => rfl
    | cons op ops ih =>
        rw [List.find?_cons, List.find?_cons, operator_symbol_fence (hops op List.mem_cons_self),
          ih fun op hop => hops op (List.mem_cons_of_mem _ hop)]
  unfold Grammar.findOperator?
  rw [hfind _ fun _ hop => hop]

theorem endsOperators_fence (flags : Flags) (spaced : Bool) :
    Grammar.standard.endsOperators flags spaced (w ++ ')' :: u)
      = Grammar.standard.endsOperators flags spaced (w ++ [')']) := by
  cases w with
  | nil => simp [Grammar.endsOperators]
  | cons a w =>
      have hhead : (w ++ ')' :: u).head? = (w ++ [')']).head? := by cases w <;> rfl
      have helse : startsWithWord "else".toList (a :: (w ++ ')' :: u))
          = startsWithWord "else".toList (a :: (w ++ [')'])) := by
        rw [← List.cons_append, ← List.cons_append, startsWithWord_fence fence_paren (by decide),
          startsWithWord_fence fence_paren (by decide)]
      have hfind : Grammar.standard.findOperator? (a :: (w ++ ')' :: u)) none
          = Grammar.standard.findOperator? (a :: (w ++ [')'])) none := by
        rw [← List.cons_append, ← List.cons_append, findOperator?_fence, findOperator?_fence]
      simp only [Grammar.endsOperators, List.cons_append, hhead, helse, hfind]

/-! ### Forms -/

theorem accepts_fence {f : Nat × Form} (hf : f ∈ Form.standard) (flags : Flags) :
    f.2.accepts (w ++ ')' :: u) flags = f.2.accepts (w ++ [')']) flags := by
  have hkeyword (word : List Char) (parts : Surroundings → Reading (NodeKind NodeId))
      (hword : ')' ∉ word) : (Form.keyword word parts).accepts (w ++ ')' :: u) flags
        = (Form.keyword word parts).accepts (w ++ [')']) flags := by
    change startsWithWord word _ = startsWithWord word _
    rw [startsWithWord_fence fence_paren hword, startsWithWord_fence fence_paren hword]
  have hhead : (w ++ ')' :: u).head? = (w ++ [')']).head? := by cases w <;> rfl
  simp only [Form.standard, List.mem_cons, List.not_mem_nil, or_false] at hf
  rcases hf with rfl | rfl | rfl | rfl | rfl | rfl | rfl | rfl | rfl | rfl | rfl | rfl | rfl
  -- `if`, `while`, `for` and `end`
  · exact hkeyword _ _ (by decide)
  · exact hkeyword _ _ (by decide)
  · exact hkeyword _ _ (by decide)
  · exact hkeyword _ _ (by decide)
  · cases w with
    | nil => rfl
    | cons a w =>
        have hparen : isBlank ')' = false := by decide
        have hnext : ((w ++ ')' :: u).dropWhile isBlank).head?
            = ((w ++ [')']).dropWhile isBlank).head? := by
          rw [dropWhile_fence hparen, dropWhile_fence hparen]
          cases w.dropWhile isBlank <;> rfl
        by_cases ha : a = ':'
        · subst ha
          simp only [Form.everything, List.cons_append, hnext]
        · simp [Form.everything, ha]
  · rcases w with _ | ⟨a, _ | ⟨b, w⟩⟩
    · rfl
    · by_cases ha : a = '.' <;> simp [Form.number, ha]
    · by_cases ha : a = '.' <;> simp [Form.number, ha]
  · simp only [Form.text, hhead]
  · have hreserved (word : List Char) (hword : word ∈ reservedWords) :
        startsWithWord word (w ++ ')' :: u) = startsWithWord word (w ++ [')']) := by
      have hfence : ')' ∉ word := by
        revert word
        decide
      rw [startsWithWord_fence fence_paren hfence, startsWithWord_fence fence_paren hfence]
    have hany : reservedWords.any (startsWithWord · (w ++ ')' :: u))
        = reservedWords.any (startsWithWord · (w ++ [')'])) := by
      rw [Bool.eq_iff_iff]
      simp only [List.any_eq_true]
      exact exists_congr fun word => and_congr_right fun hword => by rw [hreserved word hword]
    simp only [Form.identifier, hhead, hany]
  · simp only [Form.group, hhead]
  · simp only [Form.matrix, hhead]
  · have htail : (w ++ ')' :: u).tail.head? = (w ++ [')']).tail.head? ∨ w = [] := by
      rcases w with _ | ⟨a, _ | ⟨b, w⟩⟩ <;> simp
    rcases htail with htail | rfl
    · simp only [Form.abs, hhead, htail]
    · rfl
  · simp only [Form.leading, hhead]
  · simp only [Form.block, hhead]

theorem findForm?_fence (flags : Flags) :
    Grammar.standard.findForm? (w ++ ')' :: u) flags
      = Grammar.standard.findForm? (w ++ [')']) flags := by
  have hfind : ∀ forms : List (Nat × Form), (∀ f ∈ forms, f ∈ Form.standard) →
      forms.find? (·.2.accepts (w ++ ')' :: u) flags)
        = forms.find? (·.2.accepts (w ++ [')']) flags) := by
    intro forms hforms
    induction forms with
    | nil => rfl
    | cons f forms ih =>
        rw [List.find?_cons, List.find?_cons, accepts_fence (hforms f List.mem_cons_self),
          ih fun f hf => hforms f (List.mem_cons_of_mem _ hf)]
  exact congrArg (Option.map (·.2)) (hfind Form.standard fun _ hf => hf)

/-! ### Literals -/

namespace Form

theorem digitRun_fence (hx : x.isDigit = false) : digitRun (w ++ x :: u) = digitRun w := by
  unfold digitRun
  rw [takeWhile_fence hx]

theorem fractionLength_fence (hx : Fence x) :
    fractionLength (w ++ x :: u) = fractionLength w := by
  cases w with
  | nil => simp [fractionLength, hx.point]
  | cons a w =>
      by_cases ha : a = '.'
      · subst ha
        simp only [List.cons_append, fractionLength, digitRun_fence hx.digit]
      · simp [fractionLength, ha]

theorem exponentLength_fence (hx : Fence x) :
    exponentLength (w ++ x :: u) = exponentLength w := by
  have hletter : ∀ y ∈ ['e', 'E'], x ≠ y := by
    rintro y hy rfl
    have hword : ∀ y ∈ ['e', 'E'], isWordChar y = true := by decide
    have hfence := hx.word
    rw [hword x hy] at hfence
    cases hfence
  cases w with
  | nil => simp [exponentLength, hletter 'e' (by simp), hletter 'E' (by simp)]
  | cons a w =>
      cases w with
      | nil => simp [exponentLength, digitRun, hx.plus, hx.minus, hx.digit]
      | cons b w =>
          have hdrop : ((b :: w ++ x :: u).drop (if b = '+' ∨ b = '-' then 1 else 0))
              = (b :: w).drop (if b = '+' ∨ b = '-' then 1 else 0) ++ x :: u := by
            split_ifs <;> rfl
          simp only [List.cons_append] at hdrop
          simp [exponentLength, hdrop, digitRun_fence hx.digit]

theorem numberLength_fence (hx : Fence x) : numberLength (w ++ x :: u) = numberLength w := by
  have hrun := digitRun_le w
  have hfraction := fractionLength_le (w.drop (digitRun w))
  rw [List.length_drop] at hfraction
  have hsum : digitRun w + fractionLength (w.drop (digitRun w)) ≤ w.length := by omega
  simp only [numberLength, digitRun_fence hx.digit, List.drop_append_of_le_length hrun,
    fractionLength_fence hx, List.drop_append_of_le_length hsum, exponentLength_fence hx]

/-- A text literal is found by its own characters, whatever stands behind it. -/
theorem textBody?_eq_some {cs body after : List Char} (h : textBody? cs = some (body, after)) :
    ∃ p, cs = p ++ '"' :: after ∧ ∀ u, textBody? (p ++ '"' :: u) = some (body, u) := by
  fun_induction textBody? cs generalizing body with
  | case1 => cases h
  | case2 rest =>
      cases h
      exact ⟨[], rfl, fun u => by simp [textBody?]⟩
  | case3 => cases h
  | case4 c rest ih =>
      obtain ⟨⟨b, a⟩, hrest, hba⟩ := Option.map_eq_some_iff.mp h
      cases hba
      obtain ⟨p, rfl, hp⟩ := ih hrest
      exact ⟨'\\' :: c :: p, rfl, fun u => by simp [textBody?, hp u]⟩
  | case5 c rest hquote hend hescape ih =>
      obtain ⟨⟨b, a⟩, hrest, hba⟩ := Option.map_eq_some_iff.mp h
      cases hba
      obtain ⟨p, rfl, hp⟩ := ih hrest
      have hslash : c ≠ '\\' := by
        intro hc
        cases p with
        | nil => exact hescape _ _ hc rfl
        | cons d p => exact hescape _ _ hc rfl
      refine ⟨c :: p, rfl, fun u => ?_⟩
      rw [List.cons_append, textBody?, hp u]
      · rfl
      · exact hquote
      · exact fun hc => absurd hc hslash
      · exact fun _ _ hc => absurd hc hslash

end Form

/-! ### Comments -/

namespace Transform

theorem commentBody?_eq_some {cs body : List Char} (h : commentBody? cs = some body) :
    ∃ v, cs = body ++ '*' :: '/' :: v ∧ ∀ u, commentBody? (body ++ '*' :: '/' :: u) = some body := by
  fun_induction commentBody? cs generalizing body with
  | case1 => cases h
  | case2 rest =>
      cases h
      exact ⟨rest, rfl, fun u => by simp [commentBody?]⟩
  | case3 c cs hmark ih =>
      obtain ⟨b, hrest, hba⟩ := Option.map_eq_some_iff.mp h
      cases hba
      obtain ⟨v, rfl, hv⟩ := ih hrest
      refine ⟨v, rfl, fun u => ?_⟩
      rw [List.cons_append, commentBody?, hv u]
      · rfl
      · intro rest hc hrest
        cases b with
        | nil => cases hrest
        | cons d b =>
            cases hrest
            exact hmark _ hc rfl

end Transform

end MatrixScript
