import MatrixScript.Proofs.Comments.Steps
import MatrixScript.Proofs.Reading.Operators

/-!
# Forms of two readings

Where the same form accepts both texts, it reads the same node from them. A form passes its first
character before it reads an expression, so the surroundings need to go on in step only while less
is left than where the form starts.
-/

namespace MatrixScript

open Reading

/-- A form that goes on in step in two readings. -/
def Form.Agrees (g : Gap) (form : Form) : Prop :=
  ∀ {n : Nat} {s s' : Surroundings} {r r' : Reader}, g.Pair r.cursor.rest.length s s' →
    g.Faced n r r' → form.accepts r.cursor.rest s.mode.flags = true →
    Agree (g.Same r.cursor.rest.length) (form.read s r) (form.read s' r')

namespace Gap

variable {g : Gap} {m n : Nat} {s s' : Surroundings} {r r' : Reader}

theorem Match.allocFrom (h : g.Match n r r') (kind : NodeKind NodeId) (start start' : Nat) :
    Agree (g.Same n) ((allocFrom kind start : Reading NodeId) r)
      ((allocFrom kind start' : Reading NodeId) r') :=
  ⟨h.nextId_eq.symm, h.withNode kind _ _⟩

/-- A whole word that comes next is passed in both texts. -/
theorem Faced.word (h : g.Faced n r r') {word : List Char}
    (hword : ∀ x ∈ word, isWordChar x = true) (hne : word ≠ [])
    (hstarts : startsWithWord word r.cursor.rest = true) :
    g.Match r.cursor.rest.length (r.movedTo (r.cursor.advance (byteCount word)))
      (r'.movedTo (r'.cursor.advance (byteCount word))) := by
  have hblank : ' ' ∉ word := fun hmem => absurd (hword _ hmem) (by decide)
  have hprefix := (Bool.and_eq_true_iff.mp hstarts).1
  have hbytes := length_le_byteCount word
  have hlength := List.length_pos_iff.mpr hne
  refine h.movedTo (h.faces.advance fun w hw => ?_) (Cursor.advance_length (by omega) ?_)
  · rw [hw, isPrefixOf_fence hblank] at hprefix
    obtain ⟨left, rfl⟩ := List.isPrefixOf_iff_prefix.mp hprefix
    rw [byteCount_append]
    exact Nat.le_add_right _ _
  · obtain ⟨left, hleft⟩ := exists_of_startsWithWord hstarts
    intro hnil
    exact hne (List.append_eq_nil_iff.mp (hleft.symm.trans hnil)).1

/-- A keyword that may come next comes in both texts, or in none. -/
theorem Pair.eatWord_agrees (hs : g.Pair n s s') (h : g.Match n r r') {word : List Char}
    (hword : ∀ x ∈ word, isWordChar x = true) (hne : word ≠ []) :
    Agree (g.Same n) (s.eatWord word r) (s'.eatWord word r') := by
  unfold Surroundings.eatWord
  rw [cursor_bind, cursor_bind]
  refine hs.skip_bind h fun _ r₁ r₁' hr₁ => ?_
  rw [rounds_bind, rounds_bind]
  obtain ⟨hrounds, hbound, hle⟩ := hr₁.toMatch.rounds
  refine (hs.skipLines_agrees (Nat.le_refl _) hbound ⟨hrounds, hr₁.faces⟩).bind
    fun _ _ r₂ r₂' hr₂ => ?_
  rw [cursor_bind, cursor_bind, hr₂.cursor.startsWithWord_eq hword, ite_run, ite_run]
  split
  · rename_i hstarts
    exact ⟨rfl, (hr₂.word hword hne hstarts).mono (Nat.le_of_lt (Nat.lt_of_lt_of_le hr₂.below hle))⟩
  · exact ⟨rfl, hr₂.movedTo h.cursor h.below⟩

end Gap

namespace Form

open Gap

variable {g : Gap}

/-! ### Keywords -/

theorem keyword_agrees {word : List Char} {parts : Surroundings → Reading (NodeKind NodeId)}
    (hword : ∀ x ∈ word, isWordChar x = true) (hne : word ≠ [])
    (hparts : ∀ {n : Nat} {s s' : Surroundings} {r r' : Reader}, g.Pair n s s' → g.Match n r r' →
      Agree (g.Same n) (parts s r) (parts s' r')) : (keyword word parts).Agrees g := by
  intro n s s' r r' hs h haccepts
  simp only [keyword, offset_bind, advance_bind]
  refine (hparts hs (h.word hword hne haccepts)).bind fun kind _ r₁ r₁' hr₁ => ?_
  obtain ⟨rfl, hr₁⟩ := hr₁
  exact hr₁.allocFrom kind _ _

theorem branch_agrees : branch.Agrees g := by
  refine keyword_agrees (by decide) (by decide) fun {n s s' r r'} hs h => .within ?_
  refine (hs.condition_agrees h).bind fun cond _ r₁ r₁' hr₁ => ?_
  obtain ⟨rfl, hr₁⟩ := hr₁
  refine (hs.expresses hr₁ (Nat.le_refl _) 0).bind fun yes _ r₂ r₂' hr₂ => ?_
  obtain ⟨rfl, hr₂⟩ := hr₂
  have hless := hr₁.below
  have hs₂ := hs.mono (Nat.le_of_lt hless)
  refine (hs₂.eatWord_agrees hr₂ (by decide) (by decide)).bind fun b _ r₃ r₃' hr₃ => ?_
  obtain ⟨rfl, hr₃⟩ := hr₃
  cases b with
  | false => exact ⟨rfl, hr₃.mono (Nat.le_of_lt hless)⟩
  | true =>
      refine (hs₂.expresses hr₃ (Nat.le_refl _) 0).bind fun no _ r₄ r₄' hr₄ => ?_
      obtain ⟨rfl, hr₄⟩ := hr₄
      exact ⟨rfl, hr₄.mono (Nat.le_of_lt (Nat.lt_trans hr₃.below hless))⟩

theorem whileLoop_agrees : whileLoop.Agrees g := by
  refine keyword_agrees (by decide) (by decide) fun {n s s' r r'} hs h => .within ?_
  refine (hs.condition_agrees h).bind fun cond _ r₁ r₁' hr₁ => ?_
  obtain ⟨rfl, hr₁⟩ := hr₁
  refine (hs.expresses hr₁ (Nat.le_refl _) 0).bind fun body _ r₂ r₂' hr₂ => ?_
  obtain ⟨rfl, hr₂⟩ := hr₂
  exact ⟨rfl, hr₂.mono (Nat.le_of_lt hr₁.below)⟩

theorem headPart_agrees {n : Nat} {s s' : Surroundings} {r r' : Reader} (hs : g.Pair n s s')
    (h : g.Match n r r') (close : Char) :
    Agree (g.Same n) (headPart s close r) (headPart s' close r') := by
  refine hs.skip_bind h fun _ r₁ r₁' hr₁ => ?_
  rw [peek?_bind, peek?_bind, hr₁.faces.peek?_eq, ite_run, ite_run]
  split
  · exact ⟨rfl, hr₁.toMatch⟩
  · exact (hs.expresses hr₁.toMatch (Nat.le_refl _) 0).imp
      fun _ _ _ _ hsame => hsame.mono (Nat.le_of_lt hr₁.below)

theorem forLoop_agrees : forLoop.Agrees g := by
  refine keyword_agrees (by decide) (by decide) fun {n s s' r r'} hs h => .within ?_
  have hentered : g.Entered .group n := entered_of_not_inMatrix rfl
  have hhead := hs.inside hentered
  refine hs.skip_bind h fun _ r₁ r₁' hr₁ => ?_
  refine (hs.expect_agrees hr₁.toMatch '(').bind fun _ _ r₂ r₂' hr₂ => ?_
  refine (headPart_agrees hhead hr₂ ';').bind fun init _ r₃ r₃' hr₃ => ?_
  obtain ⟨rfl, hr₃⟩ := hr₃
  refine (hhead.expect_agrees hr₃ ';').bind fun _ _ r₄ r₄' hr₄ => ?_
  refine (headPart_agrees hhead hr₄ ';').bind fun cond _ r₅ r₅' hr₅ => ?_
  obtain ⟨rfl, hr₅⟩ := hr₅
  refine (hhead.expect_agrees hr₅ ';').bind fun _ _ r₆ r₆' hr₆ => ?_
  refine (headPart_agrees hhead hr₆ ')').bind fun step _ r₇ r₇' hr₇ => ?_
  obtain ⟨rfl, hr₇⟩ := hr₇
  refine (hhead.expectClose_agrees hr₇ '(' ')').bind fun _ _ r₈ r₈' hr₈ => ?_
  refine (hs.expresses hr₈.2 (Nat.le_refl _) 0).bind fun body _ r₉ r₉' hr₉ => ?_
  obtain ⟨rfl, hr₉⟩ := hr₉
  exact ⟨rfl, hr₉.mono (Nat.le_of_lt hr₈.2.below)⟩

theorem last_agrees : last.Agrees g := by
  refine keyword_agrees (by decide) (by decide) fun {n s s' r r'} _ h => ?_
  exact ⟨rfl, h⟩

/-! ### Literals and names -/

theorem everything_agrees : everything.Agrees g := by
  intro n s s' r r' hs h haccepts
  exact (h.next (colon_of_accepts haccepts)).allocFrom .everything _ _

theorem number_agrees : number.Agrees g := by
  intro n s s' r r' hs h haccepts
  obtain ⟨hpos, hne⟩ := numberLength_pos haccepts
  -- the number ends before the gap, so its text is the same in both readings
  have hnumber : numberLength r'.cursor.rest = numberLength r.cursor.rest
      ∧ r'.cursor.rest.take (numberLength r.cursor.rest)
        = r.cursor.rest.take (numberLength r.cursor.rest)
      ∧ ∀ w, r.cursor.rest = w ++ ' ' :: g.after → numberLength r.cursor.rest ≤ byteCount w := by
    have hinside (w : List Char) (hw : r.cursor.rest = w ++ ' ' :: g.after) :
        numberLength r.cursor.rest = numberLength w := by
      rw [hw, numberLength_fence fence_blank]
    refine ⟨?_, ?_, fun w hw => ?_⟩
    · rcases h.faces.rest_cases hs.clear with hrest | ⟨w, u, -, hrest, hrest'⟩
      · rw [hrest]
      · rw [hrest', hinside w hrest, numberLength_fence fence_slash]
    · rcases h.faces.rest_cases hs.clear with hrest | ⟨w, u, -, hrest, hrest'⟩
      · rw [hrest]
      · rw [hinside w hrest, hrest, hrest', List.take_append_of_le_length (numberLength_le w),
          List.take_append_of_le_length (numberLength_le w)]
    · rw [hinside w hw]
      exact Nat.le_trans (numberLength_le w) (length_le_byteCount w)
  obtain ⟨hlength, htake, hbefore⟩ := hnumber
  have hmeets := h.faces.advance hbefore
  have hlt := Cursor.advance_length hpos hne
  rw [number_read, number_read, hlength, htake, hmeets.startsWithWord_eq (by decide)]
  split
  · rename_i hsuffix
    obtain ⟨d, hd⟩ := exists_of_startsWithWord hsuffix
    have hpeek := Cursor.peek?_cons hd
    have hnext := (hmeets.faces hpeek (by decide)).next
    have hshorter := Cursor.next_length hpeek
    exact (h.movedTo hnext (by omega)).allocFrom _ _ _
  · exact (h.movedTo hmeets hlt).allocFrom _ _ _

theorem text_agrees : Form.text.Agrees g := by
  intro n s s' r r' hs h haccepts
  exact absurd (of_decide_eq_true haccepts) (h.faces.peek?_ne_quote hs.clear)

theorem identifier_agrees : identifier.Agrees g := by
  intro n s s' r r' hs h haccepts
  obtain ⟨hword, hmeets⟩ := h.faces.takeWhile (p := isWordChar) (by decide) (by decide)
  have hlt := identifier_length haccepts
  have hword : r'.cursor.rest.takeWhile isWordChar = r.cursor.rest.takeWhile isWordChar := hword
  rw [identifier_read, identifier_read, hword]
  exact (h.movedTo hmeets hlt).allocFrom _ _ _

/-! ### Delimiters -/

theorem group_agrees : group.Agrees g := by
  intro n s s' r r' hs h haccepts
  have hopen : r.cursor.peek? = some '(' := of_decide_eq_true haccepts
  simp only [group, cursor_bind, next_bind]
  refine (hs.delimited_agrees (h.next hopen) (by decide) '(' ')' .group).bind
    fun items _ r₁ r₁' hr₁ => ?_
  obtain ⟨rfl, hr₁⟩ := hr₁
  rcases items with _ | ⟨only, _ | ⟨second, items⟩⟩
  · exact hr₁.allocFrom _ _ _
  · exact ⟨rfl, hr₁⟩
  · exact hr₁.allocFrom _ _ _

theorem matrixRows_agrees {n fuel fuel' : Nat} {s s' : Surroundings} {r r' : Reader}
    {opener opener' : Span} (hs : g.Pair n s s') (hfuel : n ≤ fuel) (hfuel' : g.bound n ≤ fuel')
    (h : g.Match n r r') (row : List NodeId) (rows : List (List NodeId)) :
    Agree (g.Same n) (matrixRows s opener fuel row rows r)
      (matrixRows s' opener' fuel' row rows r') := by
  induction fuel generalizing n fuel' r r' row rows with
  | zero => exact absurd h.below (by omega)
  | succ fuel ih =>
      have hbelow := h.below
      have hbound := le_bound (g := g) n
      obtain ⟨fuel', rfl⟩ : ∃ k, fuel' = k + 1 := ⟨fuel' - 1, by omega⟩
      refine hs.skip_bind h fun _ r₁ r₁' hr₁ => ?_
      rw [peek?_bind, peek?_bind, hr₁.faces.peek?_eq]
      have hless := hr₁.below
      have hbound' := bound_lt (g := g) hless
      have hs₁ := hs.mono (Nat.le_of_lt hless)
      cases hpeek : r₁.cursor.peek? with
      | none => trivial
      | some x =>
          have hnext := hr₁.next hpeek
          by_cases hclose : x = ']'
          · subst hclose
            exact ⟨rfl, hnext.mono (Nat.le_of_lt hless)⟩
          · simp only [ite_run]
            split
            · exact (ih hs₁ (by omega) (by omega) hnext _ _).imp
                fun _ _ _ _ hsame => hsame.mono (Nat.le_of_lt hless)
            · split
              · exact (ih hs₁ (by omega) (by omega) hnext _ _).imp
                  fun _ _ _ _ hsame => hsame.mono (Nat.le_of_lt hless)
              · refine (hs.expresses hr₁.toMatch (Nat.le_refl _) 0).bind
                  fun cell _ r₂ r₂' hr₂ => ?_
                obtain ⟨rfl, hr₂⟩ := hr₂
                exact (ih hs₁ (by omega) (by omega) hr₂ _ _).imp
                  fun _ _ _ _ hsame => hsame.mono (Nat.le_of_lt hless)

theorem matrix_agrees : matrix.Agrees g := by
  intro n s s' r r' hs h haccepts
  have hopen : r.cursor.peek? = some '[' := of_decide_eq_true haccepts
  have hentered : g.Entered .matrix r.cursor.rest.length := fun _ hlt =>
    h.faces.mem_before (Nat.lt_of_succ_lt hlt) hopen
  have hinside := hs.inside hentered
  simp only [matrix, cursor_bind, next_bind]
  refine Agree.bind (Q := g.Same r.cursor.rest.length) (.within ?_) fun rows _ r₁ r₁' hr₁ => ?_
  · rw [rounds_bind, rounds_bind]
    obtain ⟨hrounds, hbound, hle⟩ := (h.next hopen).rounds
    exact (matrixRows_agrees (hinside.mono hle) (Nat.le_refl _) hbound hrounds [] []).imp
      fun _ _ _ _ hsame => hsame.mono hle
  · obtain ⟨rfl, hr₁⟩ := hr₁
    exact hr₁.allocFrom _ _ _

theorem abs_agrees : abs.Agrees g := by
  intro n s s' r r' hs h haccepts
  have hbar : r.cursor.peek? = some '|' := bar_of_accepts haccepts
  have hentered : g.Entered .abs r.cursor.rest.length := entered_of_not_inMatrix rfl
  have hinside := hs.inside hentered
  simp only [abs, cursor_bind, next_bind]
  refine Agree.bind (Q := g.Same r.cursor.rest.length) (.within ?_) fun operand _ r₁ r₁' hr₁ => ?_
  · refine (hinside.expresses (h.next hbar) (Nat.le_refl _) 0).bind fun operand _ r₁ r₁' hr₁ => ?_
    obtain ⟨rfl, hr₁⟩ := hr₁
    refine (hinside.expectClose_agrees hr₁ '|' '|').bind fun _ _ r₂ r₂' hr₂ => ?_
    exact ⟨rfl, hr₂.2.mono (Nat.le_of_lt (h.next hbar).below)⟩
  · obtain ⟨rfl, hr₁⟩ := hr₁
    exact hr₁.allocFrom _ _ _

theorem leading_agrees : leading.Agrees g := by
  intro n s s' r r' hs h haccepts
  obtain ⟨x, hx⟩ := sign_of_accepts haccepts
  simp only [leading, cursor_bind, next_bind]
  refine (hs.expresses (h.next hx) (Nat.le_refl _) _).bind fun operand _ r₁ r₁' hr₁ => ?_
  obtain ⟨rfl, hr₁⟩ := hr₁
  rw [h.faces.peek?_eq]
  exact (hr₁.mono (Nat.le_of_lt (h.next hx).below)).allocFrom _ _ _

theorem block_agrees : block.Agrees g := by
  intro n s s' r r' hs h haccepts
  have hopen : r.cursor.peek? = some '\x7b' := of_decide_eq_true haccepts
  have hentered : g.Entered .block r.cursor.rest.length := entered_of_not_inMatrix rfl
  have hinside := hs.inside hentered
  simp only [block, cursor_bind, next_bind]
  refine Agree.bind (Q := g.Same r.cursor.rest.length) (.within ?_) fun ts _ r₁ r₁' hr₁ => ?_
  · refine (hinside.statements_agrees (h.next hopen) _).bind fun ts _ r₁ r₁' hr₁ => ?_
    obtain ⟨rfl, hr₁⟩ := hr₁
    exact (hinside.expectClose_agrees hr₁ _ _).bind fun _ _ r₂ r₂' hr₂ => ⟨rfl, hr₂.2⟩
  · obtain ⟨rfl, hr₁⟩ := hr₁
    exact hr₁.allocFrom _ _ _

/-- Every form of the language goes on in step. -/
theorem standard_agrees {form : Form} (hform : form ∈ standard.map (·.2)) : form.Agrees g := by
  simp only [standard, List.map_cons, List.map_nil, List.mem_cons, List.not_mem_nil, or_false]
    at hform
  rcases hform with rfl | rfl | rfl | rfl | rfl | rfl | rfl | rfl | rfl | rfl | rfl | rfl | rfl
  · exact branch_agrees
  · exact whileLoop_agrees
  · exact forLoop_agrees
  · exact last_agrees
  · exact everything_agrees
  · exact number_agrees
  · exact text_agrees
  · exact identifier_agrees
  · exact group_agrees
  · exact matrix_agrees
  · exact abs_agrees
  · exact leading_agrees
  · exact block_agrees

end Form

end MatrixScript
