import MatrixScript.Proofs.Embedded.Operators

/-!
# Forms in two readings

Every form of the language is followed from where it accepts the text. Forms that end with a closing
delimiter are followed to the very end of the text, the others as long as something is left.
-/

namespace MatrixScript

open Reading

namespace Numbered

variable {n : Nat}

theorem below_of_children {k : NodeKind NodeId} {as : List NodeId} (hk : k.children = as)
    (has : Below n as) : Below n k := by
  intro id hid
  change id ∈ k.children at hid
  rw [hk] at hid
  exact has id (List.mem_flatMap.mpr ⟨id, hid, List.mem_singleton.mpr rfl⟩)

theorem below_absent : Below n NodeId.absent := by
  intro id hid
  exact .inl (List.mem_singleton.mp hid)

end Numbered

namespace Embedding

variable {E : Embedding} {s s' : Surroundings} {n : Nat} {Q : Cursor → Prop}

namespace Around

/-- A keyword form is followed if its parts are. -/
theorem keyword_tracks {word : List Char} {parts : Surroundings → Reading (NodeKind NodeId)}
    (hhead : ∃ x ∈ word.head?, x ∉ Grammar.triggers)
    (hparts : E.Tracks n Q (parts s) (parts s')) :
    E.TracksWhen (fun c => startsWithWord word c.rest = true) n Q
      ((Form.keyword word parts).read s) ((Form.keyword word parts).read s') := by
  refine .offset_bind fun start start' => .advance_bind (fun c hc => ?_) ?_
  · obtain ⟨rest, hrest⟩ := exists_of_startsWithWord hc
    obtain ⟨x, hx, htrigger⟩ := hhead
    refine ⟨word, rest, x, hrest, rfl, ?_, htrigger⟩
    rw [Cursor.peek?, hrest, List.head?_append, hx]
    rfl
  · exact hparts.bind_inPlace fun m kind _ hkind => .allocFrom hkind start start'

theorem branch_tracks (h : E.Around s s') :
    E.TracksWhen (fun c => startsWithWord ['i', 'f'] c.rest = true) n Alive
      (Form.branch.read s) (Form.branch.read s') := by
  refine keyword_tracks ⟨'i', rfl, by decide⟩ (.within ?_)
  refine h.condition_tracks.weaken.bind fun m cond _ hcond => ?_
  refine h.any_tracks.bind fun m₁ yes hm₁ hyes => ?_
  refine (h.eatWord_tracks (by decide) ⟨'e', rfl, by decide⟩).bind fun m₂ b hm₂ _ => ?_
  have hcond₂ := hcond.mono (Nat.le_trans hm₁ hm₂)
  have hyes₂ := hyes.mono hm₂
  cases b with
  | true =>
      refine h.any_tracks.bind fun m₃ no hm₃ hno => ?_
      have hall : Numbered.Below m₃ [cond, yes, no] :=
        Numbered.below_cons (hcond₂.mono hm₃) (Numbered.below_cons (hyes₂.mono hm₃)
          (Numbered.below_cons hno Numbered.below_nil))
      exact (TracksInPlace.pure (Numbered.below_of_children (by rfl) hall)).tracks
  | false =>
      have hall : Numbered.Below m₂ [cond, yes, NodeId.absent] :=
        Numbered.below_cons hcond₂ (Numbered.below_cons hyes₂
          (Numbered.below_cons Numbered.below_absent Numbered.below_nil))
      have htracks := (TracksInPlace.pure (E := E)
        (Numbered.below_of_children (k := .branch cond yes NodeId.absent) (by rfl) hall)).tracks
      have hshift : Numbered.shift E.before.size (NodeKind.branch cond yes NodeId.absent)
          = .branch (cond.shift E.before.size) (yes.shift E.before.size) NodeId.absent := by
        change NodeKind.branch _ _ (NodeId.absent.shift _) = _
        rw [NodeId.shift_absent]
        rfl
      rw [hshift] at htracks
      exact htracks

theorem whileLoop_tracks (h : E.Around s s') :
    E.TracksWhen (fun c => startsWithWord ['w', 'h', 'i', 'l', 'e'] c.rest = true) n Alive
      (Form.whileLoop.read s) (Form.whileLoop.read s') := by
  refine keyword_tracks ⟨'w', rfl, by decide⟩ (.within ?_)
  refine h.condition_tracks.weaken.bind fun m cond _ hcond => ?_
  refine h.any_tracks.bind fun m₁ body hm₁ hbody => ?_
  exact (TracksInPlace.pure (Numbered.below_pair rfl (hcond.mono hm₁) hbody)).tracks

theorem headPart_tracks (h : E.Around s s') {close : Char} :
    E.Tracks n Alive (Form.headPart s close) (Form.headPart s' close) := by
  refine h.skip_tracks.bind fun m _ hm _ => .peek_bind ?_ fun c => ?_
  · intro r r₁ id hrest hf
    refine ⟨h.any_tracks.grows (n := 0) hf, fun halive => ?_⟩
    exact (h.any_tracks.steady (n := 0) hf halive).1 hrest
  · by_cases hc : some c = some close
    · rw [if_pos hc, if_pos hc]
      have htracks := (TracksInPlace.pure (E := E) (Numbered.below_absent (n := m))).tracks
      have hshift : Numbered.shift E.before.size NodeId.absent = NodeId.absent :=
        NodeId.shift_absent _
      rw [hshift] at htracks
      exact htracks.start
    · rw [if_neg hc, if_neg hc]
      exact h.any_tracks.start

theorem forLoop_tracks (h : E.Around s s') :
    E.TracksWhen (fun c => startsWithWord ['f', 'o', 'r'] c.rest = true) n Alive
      (Form.forLoop.read s) (Form.forLoop.read s') := by
  have head := h.inside .group
  refine keyword_tracks ⟨'f', rfl, by decide⟩ (.within ?_)
  refine h.skip_tracks.bind fun m _ hm _ => ?_
  refine h.expect_bind (by decide) fun opener opener' => ?_
  refine head.headPart_tracks.bind fun m₁ init hm₁ hinit => ?_
  refine head.expect_bind (by decide) fun _ _ => ?_
  refine head.headPart_tracks.bind fun m₂ cond hm₂ hcond => ?_
  refine head.expect_bind (by decide) fun _ _ => ?_
  refine head.headPart_tracks.bind fun m₃ step hm₃ hstep => ?_
  refine (head.expectClose_tracks (by decide) opener opener' '(').weaken.bind fun m₄ _ hm₄ _ => ?_
  refine h.any_tracks.bind fun m₅ body hm₅ hbody => ?_
  have hall : Numbered.Below m₅ [init, cond, step, body] :=
    Numbered.below_cons (hinit.mono (by omega)) (Numbered.below_cons (hcond.mono (by omega))
      (Numbered.below_cons (hstep.mono (by omega)) (Numbered.below_cons hbody
        Numbered.below_nil)))
  exact (TracksInPlace.pure (Numbered.below_of_children (by rfl) hall)).tracks

theorem last_tracks :
    E.TracksWhen (fun c => startsWithWord ['e', 'n', 'd'] c.rest = true) n Alive
      (Form.last.read s) (Form.last.read s') :=
  keyword_tracks ⟨'e', rfl, by decide⟩ (TracksInPlace.pure
    (Numbered.below_of_children rfl Numbered.below_nil)).tracks

/-! ### Literals -/

/-- A node without children that is stored behind a literal. -/
theorem leaf_inPlace {k : NodeKind NodeId} (hk : k.children = []) (start start' : Nat) :
    E.TracksInPlace n (allocFrom k start)
      (allocFrom (Numbered.shift E.before.size k) start') :=
  .allocFrom (Numbered.below_of_children hk Numbered.below_nil) start start'

theorem leaf_grows {k : NodeKind NodeId} {start : Nat} {r r₁ : Reader} {c : Cursor} {id : NodeId}
    (hf : (allocFrom k start : Reading NodeId) (r.movedTo c) = .ok (id, r₁)) :
    r.forest.size ≤ r₁.forest.size := by
  obtain ⟨-, rfl⟩ := allocFrom_eq_ok_iff.mp hf
  rw [Reader.withNode, Forest.size_push]
  exact Nat.le_succ _

theorem everything_tracks :
    E.TracksWhen (·.peek? = some ':') n Alive (Form.everything.read s)
      (Form.everything.read s') :=
  .offset_bind fun start start' =>
    .next_bind (fun _ hpeek => ⟨':', hpeek, .inl (by decide)⟩)
      (leaf_inPlace rfl start start').tracks

theorem identifier_tracks :
    E.TracksWhen (fun c => ∃ x, c.peek? = some x ∧ x ∉ Grammar.triggers) n Alive
      (Form.identifier.read s) (Form.identifier.read s') := by
  constructor
  · intro r r₁ id _ hf
    rw [Form.identifier_read] at hf
    exact leaf_grows hf
  · rintro r r₁ id ⟨x, hpeek, hx⟩ _ _
    exact .of_peek? hpeek hx
  · rintro r r' r₁ id ⟨x, hpeek, hx⟩ hr hn hf _ hfits
    obtain ⟨w, hw, hw'⟩ := hr.cursor.fence (.of_peek? hpeek hx)
    have hparen : isWordChar ')' = false := by decide
    have hrun : r'.cursor.rest.takeWhile isWordChar = r.cursor.rest.takeWhile isWordChar := by
      rw [hw, hw', takeWhile_fence hparen, takeWhile_fence hparen]
    have hcursor : E.Cursors (r.cursor.takeWhile isWordChar).2
        (r'.cursor.takeWhile isWordChar).2 := by
      have hpass := hr.cursor.pass (List.takeWhile_append_dropWhile (p := isWordChar)).symm
      simp only [Cursor.takeWhile, hrun]
      rw [hw', dropWhile_fence hparen]
      rw [hw, dropWhile_fence hparen] at hpass ⊢
      rwa [List.append_assoc, List.singleton_append] at hpass
    rw [Form.identifier_read] at hf ⊢
    rw [hrun]
    exact (leaf_inPlace rfl _ _).follows (hr.movedTo hcursor) hn hf hfits

theorem text_tracks :
    E.TracksWhen (·.peek? = some '"') n Alive (Form.text.read s) (Form.text.read s') := by
  constructor
  · intro r r₁ id _ hf
    obtain ⟨body, after, -, hf⟩ := Form.text_read_eq_ok_iff.mp hf
    exact leaf_grows hf
  · intro r r₁ id hpeek _ _
    exact .of_peek? hpeek (by decide)
  · intro r r' r₁ id hpeek hr hn hf _ hfits
    obtain ⟨body, after, hbody, hf⟩ := Form.text_read_eq_ok_iff.mp hf
    obtain ⟨cs, hcs⟩ := Cursor.rest_of_peek? hpeek
    rw [hcs] at hbody
    obtain ⟨p, hp, hall⟩ := Form.textBody?_eq_some hbody
    rw [List.drop_succ_cons, List.drop_zero] at hp
    have hsplit : r.cursor.rest = ('"' :: p ++ ['"']) ++ after := by simp [hcs, hp]
    have hlength : byteCount r.cursor.rest - byteCount after = byteCount ('"' :: p ++ ['"']) := by
      rw [hsplit, byteCount_append, Nat.add_sub_cancel]
    have hsplit' : r'.cursor.rest = ('"' :: p ++ ['"']) ++ (after ++ E.tail) := by
      rw [hr.cursor.rest, hsplit, List.append_assoc]
    have hlength' : byteCount r'.cursor.rest - byteCount (after ++ E.tail)
        = byteCount ('"' :: p ++ ['"']) := by
      rw [hsplit', byteCount_append, Nat.add_sub_cancel]
    rw [hlength] at hf
    obtain ⟨hid, r₁', hf', hr₁⟩ := (leaf_inPlace rfl _ r'.cursor.offset).follows
      (hr.movedTo (hr.cursor.advance hsplit)) hn hf hfits
    refine ⟨hid, r₁', Form.text_read_eq_ok_iff.mpr ⟨body, after ++ E.tail, ?_, ?_⟩, hr₁⟩
    · rw [hsplit']
      simpa using hall (after ++ E.tail)
    · rw [hlength']
      exact hf'

theorem number_tracks :
    E.TracksWhen (fun c => ∃ x, c.peek? = some x ∧ x ∉ Grammar.triggers) n Alive
      (Form.number.read s) (Form.number.read s') := by
  constructor
  · intro r r₁ id _ hf
    rw [Form.number_read] at hf
    split at hf
    · exact leaf_grows hf
    · exact leaf_grows hf
  · rintro r r₁ id ⟨x, hpeek, hx⟩ _ _
    exact .of_peek? hpeek hx
  · rintro r r' r₁ id ⟨x, hpeek, hx⟩ hr hn hf _ hfits
    obtain ⟨w, hw, hw'⟩ := hr.cursor.fence (.of_peek? hpeek hx)
    have hlength : Form.numberLength r.cursor.rest = Form.numberLength w := by
      rw [hw, Form.numberLength_fence fence_paren]
    have hlength' : Form.numberLength r'.cursor.rest = Form.numberLength w := by
      rw [hw', Form.numberLength_fence fence_paren]
    have hle := Form.numberLength_le w
    have htake : r'.cursor.rest.take (Form.numberLength w)
        = r.cursor.rest.take (Form.numberLength w) := by
      rw [hw, hw', List.take_append_of_le_length hle, List.take_append_of_le_length hle]
    have hbytes : Form.numberLength w ≤ byteCount w :=
      Nat.le_trans hle (length_le_byteCount w)
    obtain ⟨hcursor, q, hq⟩ := hr.cursor.advance_le hw hbytes
    have hq' : (r'.cursor.advance (Form.numberLength w)).rest = q ++ ')' :: E.tail := by
      rw [hcursor.rest, hq, List.append_assoc, List.singleton_append]
    have hword : startsWithWord ['i'] (r'.cursor.advance (Form.numberLength w)).rest
        = startsWithWord ['i'] (r.cursor.advance (Form.numberLength w)).rest := by
      rw [hq, hq', startsWithWord_fence fence_paren (by decide),
        startsWithWord_fence fence_paren (by decide)]
    rw [Form.number_read, hlength] at hf
    rw [Form.number_read, hlength', htake, hword]
    split at hf
    · rename_i hi
      obtain ⟨rest, hrest⟩ := exists_of_startsWithWord hi
      have hpeek : (r.cursor.advance (Form.numberLength w)).peek? = some 'i' := by
        rw [Cursor.peek?, hrest]
        rfl
      rw [if_pos hi]
      exact (leaf_inPlace (k := .imaginary _) rfl _ _).follows (hr.movedTo (hcursor.next hpeek))
        hn hf hfits
    · rename_i hi
      rw [if_neg hi]
      exact (leaf_inPlace rfl _ _).follows (hr.movedTo hcursor) hn hf hfits

/-! ### Delimiters -/

theorem group_tracks (h : E.Around s s') :
    E.TracksWhen (·.peek? = some '(') n Anywhere (Form.group.read s) (Form.group.read s') := by
  refine .cursor_bind (fun _ hpeek => ⟨'(', hpeek⟩) fun c c' _ _ => ?_
  refine .next_bind (fun _ hpeek => ⟨'(', hpeek, .inl (by decide)⟩) ?_
  refine (h.delimited_tracks (by decide) _ _ _ _ _).bind_inPlace fun m items hm hitems => ?_
  rcases items with _ | ⟨first, _ | ⟨second, items⟩⟩
  · exact leaf_inPlace rfl _ _
  · exact .pure fun id hid => hitems id (List.mem_append_left _ hid)
  · exact .allocFrom_of (Numbered.below_of_children (NodeKind.children_tuple _) hitems)
      (NodeKind.map_tuple _ _) _ _

theorem endRow_shift (m : Nat) (row : List NodeId) (rows : List (List NodeId)) :
    Form.endRow (Numbered.shift m row) (Numbered.shift m rows)
      = Numbered.shift m (Form.endRow row rows) := by
  unfold Form.endRow
  cases row with
  | nil => rfl
  | cons a row =>
      have hrow : (Numbered.shift m (a :: row)).isEmpty = false := rfl
      rw [hrow, if_neg Bool.false_ne_true, ← Numbered.shift_reverse]
      rfl

theorem endRow_below {row : List NodeId} {rows : List (List NodeId)}
    (hrow : Numbered.Below n row) (hrows : Numbered.Below n rows) :
    Numbered.Below n (Form.endRow row rows) := by
  unfold Form.endRow
  split
  · exact hrows
  · exact Numbered.below_cons (Numbered.below_reverse hrow) hrows

theorem matrixRows_tracks (h : E.Around s s') (opener opener' : Span) {k k' : Nat} (hk : k ≤ k') :
    ∀ {n : Nat} {row : List NodeId} {rows : List (List NodeId)}, Numbered.Below n row →
      Numbered.Below n rows →
      E.Tracks n Anywhere (Form.matrixRows s opener k row rows)
        (Form.matrixRows s' opener' k' (Numbered.shift E.before.size row)
          (Numbered.shift E.before.size rows)) := by
  induction k generalizing k' with
  | zero =>
      intro n row rows _ _
      exact .of_fails fun r p => fail_ne_ok (r := r)
  | succ k ih =>
      obtain ⟨k', rfl⟩ : ∃ j, k' = j + 1 := ⟨k' - 1, by omega⟩
      have hk : k ≤ k' := Nat.le_of_succ_le_succ hk
      intro n row rows hrow hrows
      rw [Form.matrixRows, Form.matrixRows]
      refine h.skip_tracks.bind fun m _ hm _ => .peek_bind ?_ fun c => ?_
      · intro r r₁ found _ hf
        exact absurd hf fail_ne_ok
      have hrow := hrow.mono hm
      have hrows := hrows.mono hm
      have hend := endRow_below hrow hrows
      by_cases hclose : c = ']'
      · subst hclose
        rw [endRow_shift, ← Numbered.shift_reverse]
        exact .next_pure (by decide) (Numbered.below_reverse hend)
      simp only [Bool.or_eq_true, decide_eq_true_eq]
      by_cases hsep : c = ';' ∨ c = '\n'
      · rw [if_pos hsep, if_pos hsep, endRow_shift]
        refine .next_bind (fun _ hpeek => ⟨c, hpeek, ?_⟩) (ih hk Numbered.below_nil hend)
        exact hsep.imp_left fun hc => by rw [hc]; decide
      rw [if_neg hsep, if_neg hsep]
      by_cases hcomma : c = ','
      · rw [if_pos hcomma, if_pos hcomma]
        refine .next_bind (fun _ hpeek => ⟨c, hpeek, .inl ?_⟩) (ih hk hrow hrows)
        rw [hcomma]
        decide
      rw [if_neg hcomma, if_neg hcomma]
      refine Tracks.start (h.any_tracks.bind fun m₁ cell hm₁ hcell => ?_)
      exact ih hk (Numbered.below_cons hcell (hrow.mono hm₁)) (hrows.mono hm₁)

theorem matrix_tracks (h : E.Around s s') :
    E.TracksWhen (·.peek? = some '[') n Anywhere (Form.matrix.read s) (Form.matrix.read s') := by
  refine .cursor_bind (fun _ hpeek => ⟨'[', hpeek⟩) fun c c' _ _ => ?_
  refine .next_bind (fun _ hpeek => ⟨'[', hpeek, .inl (by decide)⟩) ?_
  refine Tracks.bind_inPlace (.within (.rounds_bind fun k k' hk => ?_)) fun m rows _ hrows => ?_
  · exact (h.inside .matrix).matrixRows_tracks _ _ hk Numbered.below_nil Numbered.below_nil
  · have hcells : Numbered.Below m rows.flatten := by
      intro id hid
      obtain ⟨cell, hcell, hid⟩ := List.mem_flatMap.mp hid
      obtain ⟨row, hrow, hmem⟩ := List.mem_flatten.mp hcell
      exact hrows id (List.mem_flatMap.mpr ⟨row, hrow, List.mem_flatMap.mpr ⟨cell, hmem, hid⟩⟩)
    exact .allocFrom_of (Numbered.below_of_children (NodeKind.children_matrix _) hcells)
      (NodeKind.map_matrix _ _) _ _

theorem abs_tracks (h : E.Around s s') :
    E.TracksWhen (·.peek? = some '|') n Anywhere (Form.abs.read s) (Form.abs.read s') := by
  refine .cursor_bind (fun _ hpeek => ⟨'|', hpeek⟩) fun c c' _ _ => ?_
  refine .next_bind (fun _ hpeek => ⟨'|', hpeek, .inl (by decide)⟩) ?_
  refine Tracks.bind_inPlace (.within ?_) fun m operand hm hoperand =>
    .allocFrom (Numbered.below_unary hoperand) _ _
  refine (h.inside .abs).any_tracks.bind fun m operand hm hoperand => ?_
  refine ((h.inside .abs).expectClose_tracks (by decide) _ _ _).bind_inPlace fun m₁ _ hm₁ _ => ?_
  exact .pure (hoperand.mono hm₁)

theorem leading_tracks (h : E.Around s s') :
    E.TracksWhen (fun c => ∃ x, c.peek? = some x ∧ x ∉ Grammar.triggers) n Alive
      (Form.leading.read s) (Form.leading.read s') := by
  refine .cursor_bind (fun _ ⟨x, hpeek, _⟩ => ⟨x, hpeek⟩) fun c c' _ hpeek => ?_
  refine .next_bind (fun _ ⟨x, hpeek, hx⟩ => ⟨x, hpeek, .inl hx⟩) ?_
  rw [h.mode, hpeek]
  refine (h.expression n _ _).bind_inPlace fun m operand hm hoperand => ?_
  exact .allocFrom (Numbered.below_unary hoperand) _ _

theorem block_tracks (h : E.Around s s') :
    E.TracksWhen (·.peek? = some '\x7b') n Anywhere (Form.block.read s) (Form.block.read s') := by
  refine .cursor_bind (fun _ hpeek => ⟨'\x7b', hpeek⟩) fun c c' _ _ => ?_
  refine .next_bind (fun _ hpeek => ⟨'\x7b', hpeek, .inl (by decide)⟩) ?_
  refine Tracks.bind_inPlace (.within (f := _) ?_) fun m ts hm hts => ?_
  · refine ((h.inside .block).statements_tracks _).bind fun m ts hm hts => ?_
    refine ((h.inside .block).expectClose_tracks (by decide) _ _ _).bind_inPlace
      fun m₁ _ hm₁ _ => ?_
    exact .pure (hts.mono hm₁)
  · have hchildren : (NodeKind.block (ts.map fun t => (t.root, t.muted))).children
        = ts.map (·.root) := by
      rw [NodeKind.children_block, List.map_map]
      rfl
    have hroots : Numbered.Below m (ts.map (·.root)) := by
      intro id hid
      obtain ⟨root, hroot, hid⟩ := List.mem_flatMap.mp hid
      obtain ⟨t, ht, rfl⟩ := List.mem_map.mp hroot
      exact hts id (List.mem_flatMap.mpr ⟨t, ht, hid⟩)
    refine .allocFrom_of (Numbered.below_of_children hchildren hroots) ?_ _ _
    change NodeKind.map _ _ = NodeKind.block ((ts.map (Numbered.shift E.before.size)).map _)
    simp [Function.comp_def, Numbered.shift]

end Around

end Embedding

end MatrixScript
