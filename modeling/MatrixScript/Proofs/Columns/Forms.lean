import MatrixScript.Proofs.Columns.Sequences
import MatrixScript.Proofs.Numerals.Scanning

/-!
# Forms in a row

Every form of the language is followed from where it accepts the element. The forms that end with a
delimiter are followed to that delimiter. All others may end outside of delimiters if they began
there.
-/

namespace MatrixScript

open Reading Grammar

/-! ### The characters of literals -/

theorem not_mem_delimiters_of_isFigure {c : Char} (hc : isFigure c = true) : c ∉ delimiters := by
  have hall : ∀ c ∈ delimiters, isFigure c = false := by decide
  intro hmem
  rw [hall c hmem] at hc
  cases hc

theorem Cursor.takeWhile_eq_advance (c : Cursor) (p : Char → Bool) :
    (c.takeWhile p).2 = c.advance (byteCount (c.rest.takeWhile p)) :=
  (Cursor.advance_append List.takeWhile_append_dropWhile.symm).symm

namespace RowPlace

open Site (reader_movedTo)

variable {E : RowPlace} {s s' : Surroundings} {z : Zone} {i j k : Nat} {P Q : Cursor → Prop}
  {r : Reader}

/-! ### Literals -/

theorem everything_follows (hpeek : r.cursor.peek? = some ':') :
    E.Follows i i z.Open z.Open (Form.everything.read s) (Form.everything.read s') r := by
  refine .offset_bind (Follows.next_bind hpeek (Scan.next_of_not_mem (by decide) i)
    (Follows.allocFrom .everything r.cursor.offset) fun hopen => ?_)
  exact ⟨hopen.of_reaches r.cursor.reaches_next, hopen.fenced⟩

theorem identifier_follows :
    E.Follows i i z.Open z.Open (Form.identifier.read s) (Form.identifier.read s') r := by
  have hword : ∀ x ∈ delimiters, isWordChar x = false := by decide
  have hdelimiters : ∀ c ∈ r.cursor.rest.takeWhile isWordChar, c ∉ delimiters := by
    intro c hc hmem
    have hchar : isWordChar c = true := List.mem_takeWhile_imp hc
    rw [hword c hmem] at hchar
    cases hchar
  have hrest := (List.takeWhile_append_dropWhile (p := isWordChar) (l := r.cursor.rest)).symm
  have hreaches := r.cursor.reaches_takeWhile isWordChar
  refine (Follows.allocFrom (.name (String.ofList (r.cursor.rest.takeWhile isWordChar)))
    r.cursor.offset).moved hreaches (fun hcompact => ?_) Form.identifier_read
    fun hopen => ⟨hopen.of_reaches hreaches, ?_⟩
  · rw [hrest] at hcompact
    exact hcompact.pass hdelimiters
  · have hsame : (E.reader r).cursor.rest.takeWhile isWordChar
        = r.cursor.rest.takeWhile isWordChar :=
      takeWhile_cursor (by decide) (hopen.fenced.of_reaches hreaches)
    have hfenced := hopen.fenced
    rw [Cursor.takeWhile_eq_advance] at hfenced
    rw [Form.identifier_read, Cursor.takeWhile_eq_advance, hsame, reader_movedTo,
      Cursor.takeWhile_eq_advance, (cursor_advance hrest hfenced).2]
    rfl

theorem text_follows (hpeek : r.cursor.peek? = some '"') :
    E.Follows i i z.Open z.Open (Form.text.read s) (Form.text.read s') r := by
  intro hat id r₁ hrun
  obtain ⟨body, after, hbody, hstored⟩ := Form.text_read_eq_ok_iff.mp hrun
  obtain ⟨cs, hcs⟩ := Cursor.rest_of_peek? hpeek
  rw [hcs, List.drop_succ_cons, List.drop_zero] at hbody
  have hbehind : Compact (.code i) after := by
    have hcompact := hat.compact
    rw [hcs] at hcompact
    exact hcompact.next.textBody hbody
  obtain ⟨p, rfl, hall⟩ := Form.textBody?_eq_some hbody
  have hsplit : r.cursor.rest = ('"' :: p ++ ['"']) ++ after := by simp [hcs]
  have hlength : byteCount r.cursor.rest - byteCount after = byteCount ('"' :: p ++ ['"']) := by
    rw [hsplit, byteCount_append, Nat.add_sub_cancel]
  rw [hlength] at hstored
  have hreaches := r.cursor.reaches_advance (byteCount ('"' :: p ++ ['"']))
  have hat₁ : (r.movedTo (r.cursor.advance (byteCount ('"' :: p ++ ['"'])))).At i :=
    hat.movedTo hreaches (by rwa [Cursor.advance_append hsplit])
  obtain ⟨hleads, hat₂, hfollows⟩ := Follows.allocFrom (E := E) (Q := z.Open)
    (.text (String.ofList body)) r.cursor.offset hat₁ id r₁ hstored
  refine ⟨(Reader.Leads.movedTo hreaches).trans hleads, hat₂, fun hopen => ?_⟩
  obtain ⟨hopen₁, hstored'⟩ := hfollows hopen
  refine ⟨hopen₁.of_reaches hreaches, fun hfits => ?_⟩
  have hstored' := hstored' hfits
  obtain ⟨hrest', hadvance⟩ := cursor_advance (E := E) hsplit hopen₁.fenced
  have hrest' : (E.reader r).cursor.rest = ('"' :: p ++ ['"']) ++ (after.dropLast ++ E.tail) :=
    hrest'
  have hlength' : byteCount (E.reader r).cursor.rest - byteCount (after.dropLast ++ E.tail)
      = byteCount ('"' :: p ++ ['"']) := by
    rw [hrest', byteCount_append, Nat.add_sub_cancel]
  refine Form.text_read_eq_ok_iff.mpr ⟨body, after.dropLast ++ E.tail, ?_, ?_⟩
  · rw [hrest']
    simpa using hall (after.dropLast ++ E.tail)
  · rw [reader_movedTo, hadvance] at hstored'
    rw [hlength']
    exact hstored'

theorem number_follows :
    E.Follows i i z.Open z.Open (Form.number.read s) (Form.number.read s') r := by
  generalize hn : Form.numberLength r.cursor.rest = n
  have hle := Form.numberLength_le r.cursor.rest
  have hfigures := Form.figures_number r.cursor.rest
  rw [hn] at hle hfigures
  have hrest := (List.take_append_drop n r.cursor.rest).symm
  have hbytes : byteCount (r.cursor.rest.take n) = n := by
    rw [byteCount_of_isFigure hfigures, List.length_take, Nat.min_eq_left hle]
  have hdelimiters : ∀ c ∈ r.cursor.rest.take n, c ∉ delimiters :=
    fun c hc => not_mem_delimiters_of_isFigure (hfigures c hc)
  -- the same figures are found in the row, and behind them an `i` or none
  have hsame (hfenced : Fenced (r.cursor.advance n)) :
      Form.numberLength (E.reader r).cursor.rest = n
        ∧ (E.reader r).cursor.rest.take n = r.cursor.rest.take n
        ∧ E.cursor (r.cursor.advance n) = (E.reader r).cursor.advance n
        ∧ startsWithWord ['i'] ((E.reader r).cursor.advance n).rest
          = startsWithWord ['i'] (r.cursor.advance n).rest := by
    have hcursor := cursor_advance (E := E) hrest (by rwa [hbytes])
    rw [hbytes] at hcursor
    have hlength := numberLength_cursor (E := E) (hfenced.of_reaches (r.cursor.reaches_advance n))
    have hall : ∀ x ∈ marks, x ∉ ['i'] := by decide
    have hword := startsWithWord_cursor (E := E) hall hfenced
    rw [hcursor.2] at hword
    refine ⟨hlength.trans hn, ?_, hcursor.2, hword⟩
    change (E.cursor r.cursor).rest.take n = _
    rw [hcursor.1]
    exact List.take_left' (by rw [List.length_take, Nat.min_eq_left hle])
  have hreaches := r.cursor.reaches_advance n
  have hbehind (hcompact : Compact (.code i) r.cursor.rest) :
      Compact (.code i) (r.cursor.advance n).rest := by
    rw [hrest] at hcompact
    rw [← hbytes, Cursor.advance_append hrest]
    exact hcompact.pass hdelimiters
  by_cases hi : startsWithWord ['i'] (r.cursor.advance n).rest = true
  · obtain ⟨w, hw⟩ := exists_of_startsWithWord hi
    have hpeek : (r.cursor.advance n).peek? = some 'i' := Cursor.peek?_cons hw
    have hnext := Cursor.reaches_next (r.cursor.advance n)
    refine (Follows.allocFrom (.imaginary (Decimal.toDouble (r.cursor.rest.take n)))
      r.cursor.offset).moved (hreaches.trans hnext) (fun hcompact => ?_) ?_
      fun hopen => ⟨hopen.of_reaches (hreaches.trans hnext), ?_⟩
    · have hcompact := (hbehind hcompact).rest_next hpeek
      rwa [Scan.next_of_not_mem (by decide)] at hcompact
    · rw [Form.number_read, hn, if_pos hi]
    · obtain ⟨hlength, htake, hcursor, hword⟩ := hsame (hopen.fenced.of_reaches hnext)
      rw [Form.number_read, hlength, hword, if_pos hi, htake, reader_movedTo,
        (cursor_next hpeek hopen.fenced).2, hcursor]
      rfl
  · refine (Follows.allocFrom (.real (Decimal.toDouble (r.cursor.rest.take n)))
      r.cursor.offset).moved hreaches hbehind ?_ fun hopen => ⟨hopen.of_reaches hreaches, ?_⟩
    · rw [Form.number_read, hn, if_neg hi]
    · obtain ⟨hlength, htake, hcursor, hword⟩ := hsame hopen.fenced
      rw [Form.number_read, hlength, hword, if_neg hi, htake, reader_movedTo, hcursor]
      rfl

/-! ### Keywords -/

/-- A keyword form is followed if its parts are. -/
theorem keyword_follows {word : List Char} {parts : Surroundings → Reading (NodeKind NodeId)}
    (hdelimiters : ∀ c ∈ word, c ∉ delimiters) (hword : startsWithWord word r.cursor.rest = true)
    (hP : ∀ c, P c → z.Open c) (hparts : ∀ r, E.Follows i i P z.Open (parts s) (parts s') r) :
    E.Follows i i z.Open z.Open ((Form.keyword word parts).read s)
      ((Form.keyword word parts).read s') r := by
  obtain ⟨rest, hrest⟩ := exists_of_startsWithWord hword
  have hreaches := r.cursor.reaches_advance (byteCount word)
  refine Site.Follows.offset_bind (Follows.advance_bind (P := P) (j := i) hrest ?_
    (fun hcompact => hcompact.pass hdelimiters) fun hhere =>
      ⟨(hP _ hhere).of_reaches hreaches, (hP _ hhere).fenced⟩)
  exact (hparts _).bind fun kind r₁ _ => Follows.allocFrom kind r.cursor.offset

theorem branch_follows (h : E.Around s s') (hz : z.Admits s.mode i)
    (hword : startsWithWord ['i', 'f'] r.cursor.rest = true) :
    E.Follows i i z.Open z.Open (Form.branch.read s) (Form.branch.read s') r := by
  refine keyword_follows (by decide) hword (fun _ => Zone.open_of_within) fun r => .within ?_
  refine Follows.bind_fenced (z := z) (h.condition_follows r) fun cond r₁ _ => ?_
  refine (h.any_follows hz r₁).bind fun yes r₂ _ => ?_
  refine (h.eatElse_follows hz r₂).bind fun b r₃ _ => ?_
  cases b with
  | true =>
      refine (h.any_follows hz r₃).bind fun no r₄ _ => ?_
      exact .pure (NodeKind.branch cond yes no)
  | false =>
      have habsent : Numbered.shift E.before.size (NodeKind.branch cond yes NodeId.absent)
          = .branch (cond.shift E.before.size) (yes.shift E.before.size) NodeId.absent := by
        change NodeKind.branch _ _ (NodeId.absent.shift _) = _
        rw [NodeId.shift_absent]
        rfl
      have hpure := Site.Follows.pure (E := E.toSite) (I := (·.At i)) (Q := z.Open) (r := r₃)
        (NodeKind.branch cond yes NodeId.absent)
      rwa [habsent] at hpure

theorem whileLoop_follows (h : E.Around s s') (hz : z.Admits s.mode i)
    (hword : startsWithWord ['w', 'h', 'i', 'l', 'e'] r.cursor.rest = true) :
    E.Follows i i z.Open z.Open (Form.whileLoop.read s) (Form.whileLoop.read s') r := by
  refine keyword_follows (by decide) hword (fun _ => Zone.open_of_within) fun r => .within ?_
  refine Follows.bind_fenced (z := z) (h.condition_follows r) fun cond r₁ _ => ?_
  exact (h.any_follows hz r₁).bind fun body r₂ _ => .pure (NodeKind.whileLoop cond body)

theorem headPart_follows (h : E.Around s s') {close : Char} (r : Reader) :
    E.Follows i i Within Within (Form.headPart s close) (Form.headPart s' close) r := by
  refine (h.trivia_follows r).bind fun _ r₁ _ => Follows.peek_bind ?_
  split
  · have habsent : Numbered.shift E.before.size NodeId.absent = NodeId.absent :=
      NodeId.shift_absent _
    have hpure := Site.Follows.pure (E := E.toSite) (I := (·.At i)) (Q := Within) (r := r₁)
      NodeId.absent
    rwa [habsent] at hpure
  · exact h.nested_follows r₁

theorem forLoop_follows (h : E.Around s s') (hz : z.Admits s.mode i)
    (hword : startsWithWord ['f', 'o', 'r'] r.cursor.rest = true) :
    E.Follows i i z.Open z.Open (Form.forLoop.read s) (Form.forLoop.read s') r := by
  have head := h.inside .group
  refine keyword_follows (by decide) hword (fun _ => Zone.open_of_within) fun r => .within ?_
  refine (h.trivia_follows r).bind fun _ r₁ _ => ?_
  refine h.expect_bind (j := i + 1) rfl fun opener opener' r₂ => ?_
  refine (headPart_follows head r₂).bind fun init r₃ _ => ?_
  refine head.expect_bind (j := i + 1) rfl fun _ _ r₄ => ?_
  refine (headPart_follows head r₄).bind fun cond r₅ _ => ?_
  refine head.expect_bind (j := i + 1) rfl fun _ _ r₆ => ?_
  refine (headPart_follows head r₆).bind fun step r₇ _ => ?_
  refine Follows.bind_fenced (j := i) (z := z)
    (head.expectClose_follows (by decide) rfl opener opener' '(' r₇) fun _ r₈ _ => ?_
  exact (h.any_follows hz r₈).bind fun body r₉ _ => .pure (NodeKind.forLoop init cond step body)

theorem last_follows (hword : startsWithWord ['e', 'n', 'd'] r.cursor.rest = true) :
    E.Follows i i z.Open z.Open (Form.last.read s) (Form.last.read s') r :=
  keyword_follows (by decide) hword (fun _ hopen => hopen) fun _ => .pure NodeKind.last

/-! ### Delimiters -/

/-- A form that stands behind one character. -/
theorem behind_follows {f f' : Cursor → Reading NodeId} {x : Char}
    (hpeek : r.cursor.peek? = some x) (hscan : (Scan.code i).next x = .code j)
    (hf : ∀ r₁, E.Follows j k P Q (f r.cursor) (f' (E.cursor r.cursor)) r₁) {P' : Cursor → Prop}
    (hP : P r.cursor.next → P' r.cursor ∧ Fenced r.cursor.next) :
    E.Follows i k P' Q (Reading.cursor >>= fun c => next >>= fun _ => f c)
      (Reading.cursor >>= fun c => next >>= fun _ => f' c) r :=
  .cursor_bind (Follows.next_bind hpeek hscan (hf _) hP)

theorem within_of_next (h : Within r.cursor.next) : Within r.cursor ∧ Fenced r.cursor.next :=
  ⟨h.of_reaches r.cursor.reaches_next, h.fenced⟩

theorem group_follows (h : E.Around s s') (hpeek : r.cursor.peek? = some '(') :
    E.Follows i i Within Fenced (Form.group.read s) (Form.group.read s') r := by
  refine behind_follows (j := i + 1) (P := Within) hpeek rfl (fun r₁ => ?_) within_of_next
  refine (h.delimited_follows (j := i) (by decide) rfl _ _ _ _ _ r₁).bind fun items r₂ _ => ?_
  rcases items with _ | ⟨first, _ | ⟨second, items⟩⟩
  · exact Follows.allocFrom (.tuple []) r.cursor.offset
  · exact .pure first
  · exact Follows.allocFrom_of (NodeKind.map_tuple _ _)

theorem matrixRows_follows (h : E.Around s s') (opener opener' : Span) {n n' : Nat} (hn : n ≤ n')
    (row : List NodeId) (rows : List (List NodeId)) (r : Reader) :
    E.Follows (i + 1) i Within Fenced (Form.matrixRows s opener n row rows)
      (Form.matrixRows s' opener' n' (Numbered.shift E.before.size row)
        (Numbered.shift E.before.size rows)) r := by
  induction n generalizing n' row rows r with
  | zero => exact .of_fails fun p => fail_ne_ok (r := r)
  | succ n ih =>
      obtain ⟨n', rfl⟩ : ∃ m, n' = m + 1 := ⟨n' - 1, by omega⟩
      have hn : n ≤ n' := Nat.le_of_succ_le_succ hn
      rw [Form.matrixRows, Form.matrixRows]
      refine (h.trivia_follows r).bind fun _ r₁ _ => Follows.peek_bind ?_
      cases hpeek : r₁.cursor.peek? with
      | none => exact .of_fails fun p => fail_ne_ok (r := r₁)
      | some c =>
          by_cases hclose : c = ']'
          · subst hclose
            rw [Embedding.Around.endRow_shift, ← Numbered.shift_reverse]
            exact Follows.next_bind (j := i) (P := Fenced) hpeek rfl (.pure _)
              fun hfenced => ⟨within_of_peek? hpeek (by decide) hfenced, hfenced⟩
          simp only [Bool.or_eq_true, decide_eq_true_eq]
          by_cases hsep : c = ';' ∨ c = '\n'
          · rw [if_pos hsep, if_pos hsep, Embedding.Around.endRow_shift]
            have hdelimiter : c ∉ delimiters := by
              rcases hsep with rfl | rfl <;> decide
            exact (ih hn [] _ _).next_bind hpeek (Scan.next_of_not_mem hdelimiter _) within_of_next
          rw [if_neg hsep, if_neg hsep]
          by_cases hcomma : c = ','
          · rw [if_pos hcomma, if_pos hcomma]
            subst hcomma
            exact (ih hn row rows _).next_bind hpeek (Scan.next_of_not_mem (by decide) _)
              within_of_next
          rw [if_neg hcomma, if_neg hcomma]
          exact (h.nested_follows r₁).bind fun cell r₂ _ => ih hn (cell :: row) rows r₂

theorem matrix_follows (h : E.Around s s') (hpeek : r.cursor.peek? = some '[') :
    E.Follows i i Within Fenced (Form.matrix.read s) (Form.matrix.read s') r := by
  refine behind_follows (j := i + 1) (P := Within) hpeek rfl (fun r₁ => ?_) within_of_next
  refine Site.Follows.bind (J := (·.At i)) (Q := Fenced)
    (Site.Follows.within (Follows.rounds_bind fun n n' hn => ?_)) fun rows r₂ _ => ?_
  · exact matrixRows_follows (h.inside .matrix) _ _ hn [] [] r₁
  · exact Follows.allocFrom_of (NodeKind.map_matrix _ _)

theorem abs_follows (h : E.Around s s') (hpeek : r.cursor.peek? = some '|') :
    E.Follows i i Within Fenced (Form.abs.read s) (Form.abs.read s') r := by
  refine behind_follows (j := i) (P := Within) hpeek rfl (fun r₁ => ?_) within_of_next
  refine Site.Follows.bind (J := (·.At i)) (Q := Fenced) (Site.Follows.within ?_) fun operand r₂ _ =>
    Follows.allocFrom (.unary .abs operand) r.cursor.offset
  refine ((h.inside .abs).nested_follows r₁).bind fun operand r₂ _ => ?_
  exact ((h.inside .abs).expectClose_follows (j := i) (by decide) rfl _ _ _ r₂).bind
    fun _ r₃ _ => .pure operand

theorem block_follows (h : E.Around s s') (hpeek : r.cursor.peek? = some '\x7b') :
    E.Follows i i Within Fenced (Form.block.read s) (Form.block.read s') r := by
  refine behind_follows (j := i + 1) (P := Within) hpeek rfl (fun r₁ => ?_) within_of_next
  refine Site.Follows.bind (J := (·.At i)) (Q := Fenced) (Site.Follows.within ?_)
    fun ts r₂ _ => Follows.allocFrom_of ?_
  · refine ((h.inside .block).statements_follows _ r₁).bind fun ts r₂ _ => ?_
    exact ((h.inside .block).expectClose_follows (j := i) (by decide) rfl _ _ _ r₂).bind
      fun _ r₃ _ => .pure ts
  · change NodeKind.map _ _ = NodeKind.block ((ts.map (Numbered.shift E.before.size)).map _)
    simp [Function.comp_def, Numbered.shift]

theorem leading_follows (h : E.Around s s') (hz : z.Admits s.mode i) {x : Char}
    (hpeek : r.cursor.peek? = some x) (hx : x ∈ leadingMarks) :
    E.Follows i i z.Open z.Open (Form.leading.read s) (Form.leading.read s') r := by
  have hall : ∀ x ∈ leadingMarks, x ∉ delimiters := by decide
  have hmore (r₁ : Reader) : E.Follows i i z.Open z.Open
      (s.expressionIn s.mode (Precedence.leading + 1) >>= fun operand =>
        allocFrom (.unary ((Form.leadingOp? (some x)).getD .not) operand) r.cursor.offset)
      (s'.expressionIn s.mode (Precedence.leading + 1) >>= fun operand =>
        allocFrom (.unary ((Form.leadingOp? (some x)).getD .not) operand)
          (r.cursor.offset + E.bytes)) r₁ :=
    (h.expression z i s.mode _ r₁ hz).bind fun operand r₂ _ => Follows.allocFrom (.unary _ operand) _
  refine (hmore _).moved r.cursor.reaches_next (fun hcompact => ?_) ?_
    fun hopen => ⟨hopen.of_reaches r.cursor.reaches_next, ?_⟩
  · rw [← Scan.next_of_not_mem (hall x hx) i]
    exact hcompact.rest_next hpeek
  · rw [← hpeek]
    rfl
  · obtain ⟨hpeek', hnext⟩ := cursor_next (E := E) hpeek hopen.fenced
    rw [reader_movedTo, hnext, ← hpeek', ← h.mode]
    rfl

/-- Every form of the language is followed where it accepts the element. -/
theorem form_follows (h : E.Around s s') (hz : z.Admits s.mode i) {f : Nat × Form}
    (hf : f ∈ Form.standard) (haccepts : f.2.accepts r.cursor.rest s.mode.flags = true) :
    E.Follows i i z.Open z.Open (f.2.read s) (f.2.read s') r := by
  have hdelimited {f : Form} (hread : E.Follows i i Within Fenced (f.read s) (f.read s') r) :
      E.Follows i i z.Open z.Open (f.read s) (f.read s') r :=
    (hread.weaken fun _ => Zone.Open.fenced).start Zone.open_of_within
  obtain ⟨x, hpeek, -⟩ := Embedding.head?_of_accepts hf haccepts
  simp only [Form.standard, List.mem_cons, List.not_mem_nil, or_false] at hf
  rcases hf with rfl | rfl | rfl | rfl | rfl | rfl | rfl | rfl | rfl | rfl | rfl | rfl | rfl
  · exact branch_follows h hz haccepts
  · exact whileLoop_follows h hz haccepts
  · exact forLoop_follows h hz haccepts
  · exact last_follows haccepts
  · exact everything_follows (Form.colon_of_accepts haccepts)
  · exact number_follows
  · exact text_follows (of_decide_eq_true haccepts)
  · exact identifier_follows
  · exact hdelimited (group_follows h (of_decide_eq_true haccepts))
  · exact hdelimited (matrix_follows h (of_decide_eq_true haccepts))
  · exact hdelimited (abs_follows h (Form.bar_of_accepts haccepts))
  · have hsign : (Form.leadingOp? r.cursor.rest.head?).isSome = true := haccepts
    rw [hpeek] at hsign
    exact leading_follows h hz hpeek (leadingOp?_isSome_iff.mp hsign)
  · exact hdelimited (block_follows h (of_decide_eq_true haccepts))

end RowPlace

end MatrixScript
