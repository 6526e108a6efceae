import MatrixScript.Proofs.Embedded.Lexical
import MatrixScript.Proofs.Layout.Steps
import MatrixScript.Proofs.Reading.Operators

/-!
# Forms that gather nodes

Each standard form passes the characters that it is recognised by, gathers its parts behind them,
and puts these under one node. Only a pair of parentheses around a single expression makes no node
of its own. That a form accepts the text is what assures that it passes something.
-/

namespace MatrixScript

open Reading

/-- What the parts of a node leave: they have been gathered, and the node can take them up. -/
def Parts (text : List Char) (r : Reader) (kind : NodeKind NodeId) (r₁ : Reader) : Prop :=
  ∃ ids, Gathered text r r₁ ids ∧ kind.Takes ids ∧ ∀ f : Forest, f.Assignable kind

/-- A form that gathers one node from any text that it accepts. -/
def Form.Sound (text : List Char) (form : Form) : Prop :=
  ∀ {s : Surroundings}, s.Sound text → ∀ {r : Reader}, r.In text →
    form.accepts r.cursor.rest s.mode.flags = true →
    Outcome text (fun id r₁ => Gathered text r r₁ [id]) (form.read s r)

section Rules

variable {text : List Char} {s : Surroundings} {r r₁ : Reader} {c : Cursor} {ids : List NodeId}
  {kind : NodeKind NodeId}

/-- What is gathered behind a place is gathered from any place before it. -/
theorem Gathered.earlier (h : Gathered text (r.movedTo c) r₁ ids) (hr : r.In text)
    (hc : r.cursor.Reaches c) : Gathered text r r₁ ids :=
  ((Gathered.refl hr).movedTo hc).trans h

/-- The node of a form takes up its parts. -/
theorem Parts.allocFrom (h : Parts text (r.movedTo c) kind r₁)
    (hshort : byteCount text < 4294967296) (hr : r.In text) (hc : r.cursor.Reaches c)
    (hlt : c.rest.length < r.cursor.rest.length) :
    Outcome text (fun id r₂ => Gathered text r r₂ [id])
      ((allocFrom kind r.cursor.offset : Reading NodeId) r₁) := by
  obtain ⟨ids, hr₁, htakes, hassign⟩ := h
  exact Gathered.form hshort hr hc hlt hr₁ htakes (hassign _)

/-- A node without children needs no more than that something has been passed. -/
theorem leaf_gathers (hshort : byteCount text < 4294967296) (hr : r.In text)
    (hc : r.cursor.Reaches c) (hlt : c.rest.length < r.cursor.rest.length)
    (htakes : kind.Takes []) (hassign : ∀ f : Forest, f.Assignable kind) :
    Outcome text (fun id r₂ => Gathered text r r₂ [id])
      ((allocFrom kind r.cursor.offset : Reading NodeId) (r.movedTo c)) :=
  Parts.allocFrom ⟨[], .refl (hr.movedTo hc), htakes, hassign⟩ hshort hr hc hlt

/-- A node with parts behind the character that its form is recognised by. -/
theorem opened_gathers {α : Type} {x : Char} {f : Reading α} {node : α → NodeKind NodeId}
    {parts : α → List NodeId} (hshort : byteCount text < 4294967296) (hr : r.In text)
    (hx : r.cursor.peek? = some x)
    (hf : Gathers text (r.movedTo r.cursor.next) [] f
      fun a r₁ => Gathered text (r.movedTo r.cursor.next) r₁ (parts a))
    (hnode : ∀ a, (node a).Takes (parts a) ∧ ∀ f : Forest, f.Assignable (node a)) :
    Outcome text (fun id r₁ => Gathered text r r₁ [id])
      ((f >>= fun a => allocFrom (node a) r.cursor.offset) (r.movedTo r.cursor.next)) := by
  have hnext := r.cursor.reaches_next
  have hlength := Cursor.next_length hx
  refine (hf _ (.refl (hr.movedTo hnext))).bind fun a r₁ hr₁ => ?_
  exact Parts.allocFrom ⟨_, hr₁, hnode a⟩ hshort hr hnext (by omega)

end Rules

theorem Surroundings.eatWord_gathers {text : List Char} {s : Surroundings} {r : Reader}
    {ids : List NodeId} (hs : s.Sound text) (word : List Char) :
    Gathers text r ids (s.eatWord word) fun _ r₁ => Gathered text r r₁ ids := by
  refine .of_moves fun r hr => ?_
  unfold eatWord
  rw [cursor_bind]
  refine (hs.skip s.mode hr).bind fun _ r₁ hr₁ => ?_
  rw [rounds_bind]
  have hin := hr.moved hr₁
  refine (skipLines_moves_in hs _ hin).bind fun _ r₂ hr₂ => ?_
  have hmoved := hr₁.trans hr₂
  rw [cursor_bind, ite_run]
  split
  · exact hmoved.trans ⟨_, r₂.cursor.reaches_advance _, rfl⟩
  · obtain ⟨c, hc, rfl⟩ := hmoved
    exact ⟨r.cursor, .refl _, rfl⟩

namespace Form

section

variable {text : List Char} (hshort : byteCount text < 4294967296)

include hshort

/-! ### Keywords -/

theorem keyword_sound {word : List Char} {parts : Surroundings → Reading (NodeKind NodeId)}
    (hword : byteCount word ≠ 0)
    (hparts : ∀ {s : Surroundings}, s.Sound text → ∀ r : Reader,
      Gathers text r [] (parts s) (Parts text r)) : (keyword word parts).Sound text := by
  intro s hs r hr haccepts
  obtain ⟨rest, hrest⟩ := exists_of_startsWithWord haccepts
  have hadvance := r.cursor.reaches_advance (byteCount word)
  have hne : r.cursor.rest ≠ [] := by
    intro hnil
    obtain ⟨rfl, -⟩ := List.append_eq_nil_iff.mp (hrest.symm.trans hnil)
    exact hword rfl
  simp only [keyword, offset_bind, advance_bind]
  refine (hparts hs _ _ (.refl (hr.movedTo hadvance))).bind fun kind r₁ hr₁ => ?_
  exact hr₁.allocFrom hshort hr hadvance (Cursor.advance_length hword hne)

theorem branch_sound : branch.Sound text := by
  refine keyword_sound hshort (by decide) fun {s} hs r => .within ?_
  refine (Surroundings.condition_gathers hs hshort).seq fun cond =>
    (hs.expresses s.mode 0).seq fun yes => (Surroundings.eatWord_gathers hs _).seq fun b => ?_
  cases b with
  | true =>
      refine (hs.expresses s.mode 0).seq fun no => .pure fun r₁ hr₁ => ?_
      exact ⟨_, hr₁, NodeKind.takes_children (.branch cond yes no), fun _ => trivial⟩
  | false =>
      refine .pure fun r₁ hr₁ => ⟨_, hr₁, ⟨fun slot hslot => ?_, ?_⟩, fun _ => trivial⟩
      · simp only [NodeKind.slots, List.mem_cons, List.not_mem_nil, or_false] at hslot
        rcases hslot with rfl | rfl | rfl
        · exact .inl (by simp)
        · exact .inl (by simp)
        · exact .inr ⟨rfl, rfl⟩
      · change (List.filter NodeId.isPresent ([cond, yes] ++ [NodeId.absent])).Sublist [cond, yes]
        have habsent : [NodeId.absent].filter NodeId.isPresent = [] := rfl
        rw [List.filter_append, habsent, List.append_nil]
        exact List.filter_sublist

theorem whileLoop_sound : whileLoop.Sound text := by
  refine keyword_sound hshort (by decide) fun {s} hs r => .within ?_
  refine (Surroundings.condition_gathers hs hshort).seq fun cond =>
    (hs.expresses s.mode 0).seq fun body => .pure fun r₁ hr₁ => ?_
  exact ⟨_, hr₁, NodeKind.takes_children (.whileLoop cond body), fun _ => trivial⟩

omit hshort in
theorem headPart_gathers {s : Surroundings} {r : Reader} {ids : List NodeId} (hs : s.Sound text)
    (close : Char) :
    Gathers text r ids (headPart s close)
      fun id r₁ => Gathered text r r₁ (ids ++ [id].filter NodeId.isPresent) := by
  refine hs.skips.seq fun _ => .peek?_bind fun c => ?_
  split
  · refine .pure fun r₁ hr₁ => ?_
    change Gathered text r r₁ (ids ++ [])
    rwa [List.append_nil]
  · intro r₁ hr₁
    refine (hs.expresses s.mode 0 r₁ hr₁).imp fun id r₂ hr₂ => ?_
    exact hr₂.sublist (List.filter_sublist.append_left ids)

theorem forLoop_sound : forLoop.Sound text := by
  refine keyword_sound hshort (by decide) fun {s} hs r => .within ?_
  have hhead := hs.inside .group
  have hsemi {ids : List NodeId} : Gathers text r ids ((s.inside .group).expect ';')
      fun _ r₁ => Gathered text r r₁ ids :=
    fun r₁ hr₁ => (Surroundings.expect_gathers hhead hshort ';' r₁ hr₁).imp fun _ _ h => h.1
  refine hs.skips.seq fun _ =>
    (Surroundings.expect_gathers hs hshort '(').bind fun opener r₀ ⟨hr₀, hopener⟩ => ?_
  refine ((headPart_gathers hhead ';').seq fun init => hsemi.seq fun _ =>
    (headPart_gathers hhead ';').seq fun cond => hsemi.seq fun _ =>
    (headPart_gathers hhead ')').seq fun step =>
    (Surroundings.expectClose_gathers hhead hshort hopener '(' ')').seq fun _ =>
    (hs.expresses s.mode 0).seq fun body => .pure fun r₁ hr₁ => ?_) r₀ hr₀
  have hids : [] ++ [init].filter NodeId.isPresent ++ [cond].filter NodeId.isPresent
      ++ [step].filter NodeId.isPresent ++ [body]
      = [init, cond, step].filter NodeId.isPresent ++ [body] := by
    rw [List.nil_append, ← List.filter_append, ← List.filter_append]
    rfl
  rw [hids] at hr₁
  have hoptional (id : NodeId) (hid : id ∈ [init, cond, step]) :
      id ∈ [init, cond, step].filter NodeId.isPresent ++ [body] ∨ id = NodeId.absent ∧ true = true := by
    by_cases hpresent : id.isPresent = true
    · exact .inl (List.mem_append_left _ (List.mem_filter.mpr ⟨hid, hpresent⟩))
    · rw [NodeId.isPresent, bne_iff_ne, not_not] at hpresent
      exact .inr ⟨hpresent, rfl⟩
  refine ⟨_, hr₁, ⟨fun slot hslot => ?_, ?_⟩, fun _ => trivial⟩
  · simp only [NodeKind.slots, List.mem_cons, List.not_mem_nil, or_false] at hslot
    rcases hslot with rfl | rfl | rfl | rfl
    · exact hoptional init (by simp)
    · exact hoptional cond (by simp)
    · exact hoptional step (by simp)
    · exact .inl (by simp)
  · change (List.filter NodeId.isPresent ([init, cond, step] ++ [body])).Sublist _
    rw [List.filter_append]
    exact List.filter_sublist.append_left _

theorem last_sound : last.Sound text :=
  keyword_sound hshort (by decide) fun _ _ => .pure fun _ hr₁ =>
    ⟨[], hr₁, NodeKind.takes_children .last, fun _ => trivial⟩

/-! ### Literals and names -/

theorem everything_sound : everything.Sound text := by
  intro s hs r hr haccepts
  have hlength := Cursor.next_length (colon_of_accepts haccepts)
  exact leaf_gathers hshort hr r.cursor.reaches_next (by omega)
    (NodeKind.takes_children .everything) fun _ => trivial

theorem number_sound : number.Sound text := by
  intro s hs r hr haccepts
  obtain ⟨hpos, hne⟩ := numberLength_pos haccepts
  have hadvance := r.cursor.reaches_advance (numberLength r.cursor.rest)
  have hlt := Cursor.advance_length hpos hne
  rw [number_read]
  split
  · have hnext := (r.cursor.advance (numberLength r.cursor.rest)).reaches_next
    have hle := hnext.length_le
    exact leaf_gathers hshort hr (hadvance.trans hnext) (by omega)
      (NodeKind.takes_children (.imaginary _)) fun _ => trivial
  · exact leaf_gathers hshort hr hadvance hlt (NodeKind.takes_children (.real _)) fun _ => trivial

theorem text_sound : Form.text.Sound text := by
  intro s hs r hr haccepts
  have hquote : r.cursor.peek? = some '"' := of_decide_eq_true haccepts
  obtain ⟨d, hd⟩ := Cursor.rest_of_peek? hquote
  simp only [Form.text, cursor_bind]
  cases hbody : textBody? (r.cursor.rest.drop 1) with
  | none =>
      have hend := r.cursor.reaches_toEnd
      exact (hr.cursor.reaches hend).spanFrom hshort hr.cursor hend
  | some p =>
      obtain ⟨body, after⟩ := p
      obtain ⟨w, hw, -⟩ := textBody?_eq_some hbody
      have hbytes : byteCount r.cursor.rest - byteCount after ≠ 0 := by
        have hone : '"'.utf8Size = 1 := rfl
        rw [hd, List.drop_one, List.tail_cons] at hw
        rw [hd, hw]
        simp only [byteCount_cons, byteCount_append]
        omega
      have hadvance := r.cursor.reaches_advance (byteCount r.cursor.rest - byteCount after)
      have hlt := Cursor.advance_length hbytes (hd ▸ List.cons_ne_nil _ _)
      exact leaf_gathers hshort hr hadvance hlt (NodeKind.takes_children (.text _)) fun _ => trivial

theorem identifier_sound : identifier.Sound text := by
  intro s hs r hr haccepts
  rw [identifier_read]
  exact leaf_gathers hshort hr (r.cursor.reaches_takeWhile _) (identifier_length haccepts)
    (NodeKind.takes_children (.name _)) fun _ => trivial

/-! ### Delimiters -/

theorem group_sound : group.Sound text := by
  intro s hs r hr haccepts
  have hopen : r.cursor.peek? = some '(' := of_decide_eq_true haccepts
  have hnext := r.cursor.reaches_next
  have hlength := Cursor.next_length hopen
  have hopener := hr.cursor.peekSpan hshort
  have hitems := Surroundings.delimited_gathers hs hshort hopener .group '(' ')' .group
    (r.movedTo r.cursor.next) (.refl (hr.movedTo hnext))
  simp only [group, cursor_bind, next_bind]
  refine hitems.bind fun items r₁ hr₁ => ?_
  have htuple : Outcome text (fun id r₂ => Gathered text r r₂ [id])
      ((allocFrom (.tuple items) r.cursor.offset : Reading NodeId) r₁) := by
    refine Parts.allocFrom ⟨_, hr₁, NodeKind.takes_of_sublist ?_, fun _ => trivial⟩ hshort hr hnext
      (by omega)
    simp [NodeKind.children, NodeKind.slots, Function.comp_def]
  rcases items with _ | ⟨only, _ | ⟨second, items⟩⟩
  · exact htuple
  · exact hr₁.earlier hr hnext
  · exact htuple

omit hshort in
theorem endRow_flatten (row : List NodeId) (rows : List (List NodeId)) :
    (endRow row rows).reverse.flatten = rows.reverse.flatten ++ row.reverse := by
  unfold endRow
  split
  · rename_i hempty
    rw [List.isEmpty_iff.mp hempty, List.reverse_nil, List.append_nil]
  · rw [List.reverse_cons, List.flatten_append, List.flatten_singleton]

omit hshort in
theorem matrixRows_gathers {s : Surroundings} {r : Reader} (hs : s.Sound text) {opener : Span}
    (hopener : opener.Within text) (fuel : Nat) (row : List NodeId) (rows : List (List NodeId)) :
    Gathers text r (rows.reverse.flatten ++ row.reverse) (matrixRows s opener fuel row rows)
      fun found r₁ => Gathered text r r₁ found.flatten := by
  induction fuel generalizing row rows with
  | zero => exact .fail hopener
  | succ fuel ih =>
      refine hs.skips.seq fun _ => .peek?_bind fun c => ?_
      split
      · exact .fail hopener
      · refine .next_bind (.pure fun r₁ hr₁ => ?_)
        rwa [endRow_flatten]
      · split
        · have hended := ih [] (endRow row rows)
          rw [endRow_flatten, List.reverse_nil, List.append_nil] at hended
          exact .next_bind hended
        · split
          · exact .next_bind (ih row rows)
          · refine (hs.expresses s.mode 0).seq fun cell => ?_
            rw [List.append_assoc, ← List.reverse_cons]
            exact ih (cell :: row) rows

theorem matrix_sound : matrix.Sound text := by
  intro s hs r hr haccepts
  have hopen : r.cursor.peek? = some '[' := of_decide_eq_true haccepts
  have hrows : Gathers text (r.movedTo r.cursor.next) [] (within .matrix do
      matrixRows (s.inside .matrix) r.cursor.peekSpan (← Surroundings.rounds) [] [])
      fun rows r₁ => Gathered text (r.movedTo r.cursor.next) r₁ rows.flatten :=
    .within (.rounds_bind fun k =>
      matrixRows_gathers (hs.inside .matrix) (hr.cursor.peekSpan hshort) k [] [])
  simp only [matrix, cursor_bind, next_bind]
  refine opened_gathers hshort hr hopen hrows fun rows => ⟨NodeKind.takes_of_sublist ?_, fun _ => trivial⟩
  simp [NodeKind.children, NodeKind.slots, Function.comp_def]

theorem abs_sound : abs.Sound text := by
  intro s hs r hr haccepts
  have hbar : r.cursor.peek? = some '|' := bar_of_accepts haccepts
  have hinside := hs.inside .abs
  have hoperand : Gathers text (r.movedTo r.cursor.next) [] (within .abs do
      let operand ← (s.inside .abs).expression
      (s.inside .abs).expectClose r.cursor.peekSpan '|' '|'
      return operand) fun operand r₁ => Gathered text (r.movedTo r.cursor.next) r₁ [operand] :=
    .within ((hinside.expresses .abs 0).seq fun operand =>
      (Surroundings.expectClose_gathers hinside hshort (hr.cursor.peekSpan hshort) '|' '|').seq
        fun _ => .pure fun _ hr₁ => hr₁)
  simp only [abs, cursor_bind, next_bind]
  exact opened_gathers hshort hr hbar hoperand fun operand =>
    ⟨NodeKind.takes_children (.unary .abs operand), fun _ => trivial⟩

theorem leading_sound : leading.Sound text := by
  intro s hs r hr haccepts
  obtain ⟨x, hx⟩ := sign_of_accepts haccepts
  simp only [leading, cursor_bind, next_bind]
  exact opened_gathers hshort hr hx (hs.expresses s.mode _) fun operand =>
    ⟨NodeKind.takes_children (.unary _ operand), fun _ => trivial⟩

theorem block_sound : block.Sound text := by
  intro s hs r hr haccepts
  have hopen : r.cursor.peek? = some '\x7b' := of_decide_eq_true haccepts
  have hinside := hs.inside .block
  have hbody : Gathers text (r.movedTo r.cursor.next) [] (within .block do
      let statements ← (s.inside .block).statements (some '\x7d')
      (s.inside .block).expectClose r.cursor.peekSpan '\x7b' '\x7d'
      return statements)
      fun ts r₁ => Gathered text (r.movedTo r.cursor.next) r₁ (ts.map (·.root)) :=
    .within ((Surroundings.statements_gathers hinside hshort _).seq fun ts =>
      (Surroundings.expectClose_gathers hinside hshort (hr.cursor.peekSpan hshort) _ _).seq
        fun _ => .pure fun _ hr₁ => hr₁)
  simp only [block, cursor_bind, next_bind]
  refine opened_gathers hshort hr hopen hbody fun ts => ⟨NodeKind.takes_of_sublist ?_, fun _ => trivial⟩
  simp [NodeKind.children, NodeKind.slots, Function.comp_def]

/-- Every form of the language gathers the node of its operand. -/
theorem standard_sound {form : Form} (hform : form ∈ standard.map (·.2)) : form.Sound text := by
  simp only [standard, List.map_cons, List.map_nil, List.mem_cons, List.not_mem_nil, or_false]
    at hform
  rcases hform with rfl | rfl | rfl | rfl | rfl | rfl | rfl | rfl | rfl | rfl | rfl | rfl | rfl
  · exact branch_sound hshort
  · exact whileLoop_sound hshort
  · exact forLoop_sound hshort
  · exact last_sound hshort
  · exact everything_sound hshort
  · exact number_sound hshort
  · exact text_sound hshort
  · exact identifier_sound hshort
  · exact group_sound hshort
  · exact matrix_sound hshort
  · exact abs_sound hshort
  · exact leading_sound hshort
  · exact block_sound hshort

end

end Form

end MatrixScript
