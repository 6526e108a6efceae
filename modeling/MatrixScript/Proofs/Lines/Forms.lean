import MatrixScript.Proofs.Lines.Sequences

/-!
# Forms where a text stands

Every form of the language is followed from where it accepts the text. The forms that end with an
expression may end where the text does, if they are read as a statement.
-/

namespace MatrixScript

open Reading Grammar

namespace Place

open Site (reader_movedTo)

variable {E : Place} {s s' : Surroundings} {P Q : Cursor → Prop} {r : Reader}

/-- A keyword form is followed if its parts are. -/
theorem keyword_follows {word : List Char} {parts : Surroundings → Reading (NodeKind NodeId)}
    (hhead : ∃ x ∈ word.head?, x ∉ triggers) (hword : startsWithWord word r.cursor.rest = true)
    (hparts : ∀ r, E.Follows P Q (parts s) (parts s') r) :
    E.Follows (E.Clear false) Q ((Form.keyword word parts).read s)
      ((Form.keyword word parts).read s') r := by
  obtain ⟨rest, hrest⟩ := exists_of_startsWithWord hword
  obtain ⟨x, hx, htrigger⟩ := hhead
  have hpeek : r.cursor.peek? = some x := by
    rw [Cursor.peek?, hrest, List.head?_append, hx]
    rfl
  have hbytes : byteCount word ≤ byteCount r.cursor.rest := by
    rw [hrest, byteCount_append]
    exact Nat.le_add_right _ _
  refine Site.Follows.offset_bind
    (Follows.advance_bind (P := P) hbytes ?_ fun _ => clear_of_peek? hpeek htrigger)
  exact (hparts _).bind fun kind r₁ _ => Follows.allocFrom kind r.cursor.offset

theorem branch_follows (h : E.Around s s')
    (hword : startsWithWord ['i', 'f'] r.cursor.rest = true) :
    E.Follows (E.Clear false) (E.Clear s.mode.endsText) (Form.branch.read s) (Form.branch.read s')
      r := by
  refine keyword_follows (P := E.Clear false) ⟨'i', rfl, by decide⟩ hword fun r => .within ?_
  refine (h.condition_follows r).bind_anywhere fun cond r₁ _ => ?_
  refine (h.any_follows r₁).bind fun yes r₂ _ => ?_
  refine (h.eatElse_follows r₂).bind fun b r₃ _ => ?_
  cases b with
  | true =>
      refine ((h.any_follows r₃).start fun hclear => hclear.mono).bind fun no r₄ _ => ?_
      exact .pure (NodeKind.branch cond yes no)
  | false =>
      have habsent : Numbered.shift E.before.size (NodeKind.branch cond yes NodeId.absent)
          = .branch (cond.shift E.before.size) (yes.shift E.before.size) NodeId.absent := by
        change NodeKind.branch _ _ (NodeId.absent.shift _) = _
        rw [NodeId.shift_absent]
        rfl
      have hpure := Site.Follows.pure (E := E.toSite) (I := fun _ => True)
        (Q := E.Clear s.mode.endsText) (r := r₃)
        (NodeKind.branch cond yes NodeId.absent)
      rwa [habsent] at hpure

theorem whileLoop_follows (h : E.Around s s')
    (hword : startsWithWord ['w', 'h', 'i', 'l', 'e'] r.cursor.rest = true) :
    E.Follows (E.Clear false) (E.Clear s.mode.endsText) (Form.whileLoop.read s)
      (Form.whileLoop.read s') r := by
  refine keyword_follows (P := E.Clear false) ⟨'w', rfl, by decide⟩ hword fun r => .within ?_
  refine (h.condition_follows r).bind_anywhere fun cond r₁ _ => ?_
  exact (h.any_follows r₁).bind fun body r₂ _ => .pure (NodeKind.whileLoop cond body)

theorem headPart_follows (h : E.Around s s') {close : Char} (r : Reader) :
    E.Follows (E.Clear false) (E.Clear false) (Form.headPart s close) (Form.headPart s' close)
      r := by
  refine (h.trivia_follows r).bind fun _ r₁ _ => Follows.peek_bind ?_
  split
  · have habsent : Numbered.shift E.before.size NodeId.absent = NodeId.absent :=
      NodeId.shift_absent _
    have hpure := Site.Follows.pure (E := E.toSite) (I := fun _ => True) (Q := E.Clear false)
      (r := r₁) NodeId.absent
    rwa [habsent] at hpure
  · exact h.nested_follows r₁

theorem forLoop_follows (h : E.Around s s')
    (hword : startsWithWord ['f', 'o', 'r'] r.cursor.rest = true) :
    E.Follows (E.Clear false) (E.Clear s.mode.endsText) (Form.forLoop.read s) (Form.forLoop.read s')
      r := by
  have head := h.inside .group
  refine keyword_follows (P := E.Clear false) ⟨'f', rfl, by decide⟩ hword fun r => .within ?_
  refine (h.trivia_follows r).bind fun _ r₁ _ => ?_
  refine h.expect_bind (by decide) fun opener opener' r₂ => ?_
  refine (headPart_follows head r₂).bind fun init r₃ _ => ?_
  refine head.expect_bind (by decide) fun _ _ r₄ => ?_
  refine (headPart_follows head r₄).bind fun cond r₅ _ => ?_
  refine head.expect_bind (by decide) fun _ _ r₆ => ?_
  refine (headPart_follows head r₆).bind fun step r₇ _ => ?_
  refine (head.expectClose_follows (by decide) opener opener' '(' r₇).bind_anywhere
    fun _ r₈ _ => ?_
  exact (h.any_follows r₈).bind fun body r₉ _ => .pure (NodeKind.forLoop init cond step body)

theorem last_follows (hword : startsWithWord ['e', 'n', 'd'] r.cursor.rest = true) :
    E.Follows (E.Clear false) Q (Form.last.read s) (Form.last.read s') r :=
  keyword_follows ⟨'e', rfl, by decide⟩ hword fun _ => .pure NodeKind.last

/-! ### Literals -/

theorem everything_follows (hpeek : r.cursor.peek? = some ':') :
    E.Follows (E.Clear false) Q (Form.everything.read s) (Form.everything.read s') r :=
  .offset_bind (Follows.next_bind hpeek (Follows.allocFrom .everything r.cursor.offset)
    fun _ => clear_of_peek? hpeek (by decide))

theorem identifier_follows {x : Char} (hpeek : r.cursor.peek? = some x) (hx : x ∉ triggers) :
    E.Follows (E.Clear false) Q (Form.identifier.read s) (Form.identifier.read s') r := by
  have hline : isWordChar '\n' = false := by decide
  have hrun : (E.reader r).cursor.rest.takeWhile isWordChar
      = r.cursor.rest.takeWhile isWordChar := E.endsLine.takeWhile_eq hline
  have hrest : (E.reader r).cursor.rest.dropWhile isWordChar
      = r.cursor.rest.dropWhile isWordChar ++ E.tail := E.endsLine.dropWhile_eq hline
  have hmoved : ((E.reader r).cursor.takeWhile isWordChar).2
      = E.cursor (r.cursor.takeWhile isWordChar).2 := by
    unfold Cursor.takeWhile
    dsimp only
    rw [hrun, hrest]
    simp only [cursor_eq, Site.reader, Cursor.mk.injEq, and_true]
    omega
  refine (Follows.allocFrom (.name (String.ofList (r.cursor.rest.takeWhile isWordChar)))
    r.cursor.offset).moved (r.cursor.reaches_takeWhile isWordChar) Form.identifier_read ?_
    fun _ => clear_of_peek? hpeek hx
  rw [Form.identifier_read, reader_movedTo, hmoved, hrun]
  rfl

theorem text_follows (hpeek : r.cursor.peek? = some '"') :
    E.Follows (E.Clear false) Q (Form.text.read s) (Form.text.read s') r := by
  intro _ id r₁ hrun
  obtain ⟨body, after, hbody, hstored⟩ := Form.text_read_eq_ok_iff.mp hrun
  obtain ⟨cs, hcs⟩ := Cursor.rest_of_peek? hpeek
  rw [hcs] at hbody
  obtain ⟨p, hp, hall⟩ := Form.textBody?_eq_some hbody
  rw [List.drop_succ_cons, List.drop_zero] at hp
  have hsplit : r.cursor.rest = ('"' :: p ++ ['"']) ++ after := by simp [hcs, hp]
  have hsplit' : (E.reader r).cursor.rest = ('"' :: p ++ ['"']) ++ (after ++ E.tail) := by
    rw [Site.reader, cursor_eq, hsplit, List.append_assoc]
  have hlength : byteCount r.cursor.rest - byteCount after = byteCount ('"' :: p ++ ['"']) := by
    rw [hsplit, byteCount_append, Nat.add_sub_cancel]
  have hlength' : byteCount (E.reader r).cursor.rest - byteCount (after ++ E.tail)
      = byteCount ('"' :: p ++ ['"']) := by
    rw [hsplit', byteCount_append, Nat.add_sub_cancel]
  rw [hlength] at hstored
  obtain ⟨hleads, -, hfollows⟩ := Follows.allocFrom (E := E) (Q := Q)
    (.text (String.ofList body)) r.cursor.offset trivial id r₁ hstored
  refine ⟨(Reader.Leads.movedTo (r.cursor.reaches_advance _)).trans hleads, trivial,
    fun hQ => ⟨clear_of_peek? hpeek (by decide), fun hfits => ?_⟩⟩
  refine Form.text_read_eq_ok_iff.mpr ⟨body, after ++ E.tail, ?_, ?_⟩
  · rw [hsplit']
    simpa using hall (after ++ E.tail)
  · have hstored' := (hfollows hQ).2 hfits
    rw [reader_movedTo, cursor_advance_append hsplit] at hstored'
    rw [hlength']
    exact hstored'

theorem number_follows {x : Char} (hpeek : r.cursor.peek? = some x) (hx : x ∉ triggers) :
    E.Follows (E.Clear false) Q (Form.number.read s) (Form.number.read s') r := by
  have hle := Form.numberLength_le r.cursor.rest
  have hbytes : Form.numberLength r.cursor.rest ≤ byteCount r.cursor.rest :=
    Nat.le_trans hle (length_le_byteCount r.cursor.rest)
  have hlength : Form.numberLength (E.reader r).cursor.rest = Form.numberLength r.cursor.rest :=
    E.endsLine.numberLength_eq
  have htake : (E.reader r).cursor.rest.take (Form.numberLength r.cursor.rest)
      = r.cursor.rest.take (Form.numberLength r.cursor.rest) :=
    List.take_append_of_le_length hle
  have hcursor := cursor_advance (E := E) hbytes
  have hword : startsWithWord ['i']
        ((E.reader r).cursor.advance (Form.numberLength r.cursor.rest)).rest
      = startsWithWord ['i'] (r.cursor.advance (Form.numberLength r.cursor.rest)).rest := by
    have hrest := congrArg Cursor.rest hcursor
    rw [show (E.reader r).cursor = E.cursor r.cursor from rfl, ← hrest]
    exact E.endsLine.startsWithWord_eq (by decide)
  have hclear {last : Bool} : E.Clear last r.cursor := clear_of_peek? hpeek hx
  have hreaches := r.cursor.reaches_advance (Form.numberLength r.cursor.rest)
  by_cases hi :
      startsWithWord ['i'] (r.cursor.advance (Form.numberLength r.cursor.rest)).rest = true
  · obtain ⟨w, hw⟩ := exists_of_startsWithWord hi
    refine (Follows.allocFrom (.imaginary (Decimal.toDouble
      (r.cursor.rest.take (Form.numberLength r.cursor.rest)))) r.cursor.offset).moved
      (hreaches.trans (Cursor.reaches_next _)) ?_ ?_ fun _ => hclear
    · rw [Form.number_read, if_pos hi]
    · rw [Form.number_read, hlength, htake, hword, if_pos hi, reader_movedTo,
        cursor_next (Cursor.peek?_cons hw), hcursor]
      rfl
  · refine (Follows.allocFrom (.real (Decimal.toDouble
      (r.cursor.rest.take (Form.numberLength r.cursor.rest)))) r.cursor.offset).moved
      hreaches ?_ ?_ fun _ => hclear
    · rw [Form.number_read, if_neg hi]
    · rw [Form.number_read, hlength, htake, hword, if_neg hi, reader_movedTo, hcursor]
      rfl

/-! ### Delimiters -/

/-- A form that stands behind one character. -/
theorem behind_follows {f f' : Cursor → Reading NodeId} {x : Char}
    (hpeek : r.cursor.peek? = some x) (hx : x ∉ triggers)
    (hf : ∀ r₁, E.Follows P Q (f r.cursor) (f' (E.cursor r.cursor)) r₁) :
    E.Follows (E.Clear false) Q (Reading.cursor >>= fun c => next >>= fun _ => f c)
      (Reading.cursor >>= fun c => next >>= fun _ => f' c) r :=
  .cursor_bind (Follows.next_bind hpeek (hf _) fun _ => clear_of_peek? hpeek hx)

theorem group_follows (h : E.Around s s') (hpeek : r.cursor.peek? = some '(') :
    E.Follows (E.Clear false) Anywhere (Form.group.read s) (Form.group.read s') r := by
  refine behind_follows (P := E.Clear false) hpeek (by decide) fun r₁ => ?_
  refine (h.delimited_follows (by decide) _ _ _ _ _ r₁).bind fun items r₂ _ => ?_
  rcases items with _ | ⟨first, _ | ⟨second, items⟩⟩
  · exact Follows.allocFrom (.tuple []) r.cursor.offset
  · exact .pure first
  · exact Follows.allocFrom_of (NodeKind.map_tuple _ _)

theorem matrixRows_follows (h : E.Around s s') (opener opener' : Span) {k k' : Nat} (hk : k ≤ k')
    (row : List NodeId) (rows : List (List NodeId)) (r : Reader) :
    E.Follows (E.Clear false) Anywhere (Form.matrixRows s opener k row rows)
      (Form.matrixRows s' opener' k' (Numbered.shift E.before.size row)
        (Numbered.shift E.before.size rows)) r := by
  induction k generalizing k' row rows r with
  | zero => exact .of_fails fun p => fail_ne_ok (r := r)
  | succ k ih =>
      obtain ⟨k', rfl⟩ : ∃ j, k' = j + 1 := ⟨k' - 1, by omega⟩
      have hk : k ≤ k' := Nat.le_of_succ_le_succ hk
      rw [Form.matrixRows, Form.matrixRows]
      refine (h.trivia_follows r).bind fun _ r₁ _ => Follows.peek_bind ?_
      cases hpeek : r₁.cursor.peek? with
      | none => exact .of_fails fun p => fail_ne_ok (r := r₁)
      | some c =>
          by_cases hclose : c = ']'
          · subst hclose
            rw [Embedding.Around.endRow_shift, ← Numbered.shift_reverse]
            exact Follows.next_bind (P := Anywhere) hpeek (.pure _)
              fun _ => clear_of_peek? hpeek (by decide)
          simp only [Bool.or_eq_true, decide_eq_true_eq]
          by_cases hsep : c = ';' ∨ c = '\n'
          · rw [if_pos hsep, if_pos hsep, Embedding.Around.endRow_shift]
            refine (ih hk [] _ _).next_bind hpeek fun hclear => ?_
            rcases hsep with rfl | rfl
            · exact clear_of_peek? hpeek (by decide)
            · exact hclear.of_next hpeek
          rw [if_neg hsep, if_neg hsep]
          by_cases hcomma : c = ','
          · rw [if_pos hcomma, if_pos hcomma]
            subst hcomma
            exact (ih hk row rows _).next_bind hpeek fun _ => clear_of_peek? hpeek (by decide)
          rw [if_neg hcomma, if_neg hcomma]
          exact (h.nested_follows r₁).bind fun cell r₂ _ => ih hk (cell :: row) rows r₂

theorem matrix_follows (h : E.Around s s') (hpeek : r.cursor.peek? = some '[') :
    E.Follows (E.Clear false) Anywhere (Form.matrix.read s) (Form.matrix.read s') r := by
  refine behind_follows (P := E.Clear false) hpeek (by decide) fun r₁ => ?_
  refine Site.Follows.bind (Q := Anywhere) (Site.Follows.within (Follows.rounds_bind fun k k' hk => ?_))
    fun rows r₂ _ => ?_
  · exact matrixRows_follows (h.inside .matrix) _ _ hk [] [] r₁
  · exact Follows.allocFrom_of (NodeKind.map_matrix _ _)

theorem abs_follows (h : E.Around s s') (hpeek : r.cursor.peek? = some '|') :
    E.Follows (E.Clear false) Anywhere (Form.abs.read s) (Form.abs.read s') r := by
  refine behind_follows (P := E.Clear false) hpeek (by decide) fun r₁ => ?_
  refine Site.Follows.bind (Q := Anywhere) (Site.Follows.within ?_) fun operand r₂ _ =>
    Follows.allocFrom (.unary .abs operand) r.cursor.offset
  refine ((h.inside .abs).nested_follows r₁).bind fun operand r₂ _ => ?_
  exact ((h.inside .abs).expectClose_follows (by decide) _ _ _ r₂).bind fun _ r₃ _ => .pure operand

theorem leading_follows (h : E.Around s s') {x : Char} (hpeek : r.cursor.peek? = some x)
    (hx : x ∉ triggers) :
    E.Follows (E.Clear false) (E.Clear s.mode.endsText) (Form.leading.read s) (Form.leading.read s')
      r := by
  refine behind_follows (P := E.Clear false) hpeek hx fun r₁ => ?_
  rw [h.mode, hpeek, peek?_of_some hpeek]
  exact (h.expression s.mode _ r₁).bind fun operand r₂ _ => Follows.allocFrom (.unary _ operand) _

theorem block_follows (h : E.Around s s') (hpeek : r.cursor.peek? = some '\x7b') :
    E.Follows (E.Clear false) Anywhere (Form.block.read s) (Form.block.read s') r := by
  refine behind_follows (P := E.Clear false) hpeek (by decide) fun r₁ => ?_
  refine Site.Follows.bind (Q := Anywhere) (Site.Follows.within ?_) fun ts r₂ _ => Follows.allocFrom_of ?_
  · refine ((h.inside .block).statements_follows _ r₁).bind fun ts r₂ _ => ?_
    exact ((h.inside .block).expectClose_follows (by decide) _ _ _ r₂).bind fun _ r₃ _ => .pure ts
  · change NodeKind.map _ _ = NodeKind.block ((ts.map (Numbered.shift E.before.size)).map _)
    simp [Function.comp_def, Numbered.shift]

/-- Every form of the language is followed where it accepts the text. -/
theorem form_follows (h : E.Around s s') {f : Nat × Form} (hf : f ∈ Form.standard)
    (haccepts : f.2.accepts r.cursor.rest s.mode.flags = true) :
    E.Follows (E.Clear false) (E.Clear s.mode.endsText) (f.2.read s) (f.2.read s') r := by
  obtain ⟨x, hpeek, hx⟩ := Embedding.head?_of_accepts hf haccepts
  have hanywhere {f : Form} (hread : E.Follows (E.Clear false) Anywhere (f.read s) (f.read s') r) :
      E.Follows (E.Clear false) (E.Clear s.mode.endsText) (f.read s) (f.read s') r :=
    hread.weaken fun _ _ => trivial
  simp only [Form.standard, List.mem_cons, List.not_mem_nil, or_false] at hf
  rcases hf with rfl | rfl | rfl | rfl | rfl | rfl | rfl | rfl | rfl | rfl | rfl | rfl | rfl
  · exact branch_follows h haccepts
  · exact whileLoop_follows h haccepts
  · exact forLoop_follows h haccepts
  · exact last_follows haccepts
  · exact everything_follows (Form.colon_of_accepts haccepts)
  · exact number_follows hpeek hx
  · exact text_follows (of_decide_eq_true haccepts)
  · exact identifier_follows hpeek hx
  · exact hanywhere (group_follows h (of_decide_eq_true haccepts))
  · exact hanywhere (matrix_follows h (of_decide_eq_true haccepts))
  · exact hanywhere (abs_follows h (Form.bar_of_accepts haccepts))
  · exact leading_follows h hpeek hx
  · exact hanywhere (block_follows h (of_decide_eq_true haccepts))

end Place

end MatrixScript
