import MatrixScript.Proofs.Columns.Expressions
import MatrixScript.Proofs.Layout.Programs
import MatrixScript.Proofs.Printing.Targets

/-!
# Literals of one element

A compact text between brackets that is read as a matrix of one element is that element and nothing
else: no separator stands outside of its brackets, and what stood behind a bracket that closed the
literal early would have to be an operator or another statement. So the element has been read by
itself, up to the last bracket, and it begins as an operand does.
-/

namespace MatrixScript

open Reading Grammar

/-! ### Nodes of matrices -/

theorem NodeKind.eq_matrix_of_label {α : Type} {kind : NodeKind α}
    (h : kind.label = .matrix [[()]]) : ∃ a, kind = .matrix [[a]] := by
  cases kind with
  | matrix rows =>
      rw [label, map_matrix, matrix.injEq, List.map_eq_singleton_iff] at h
      obtain ⟨row, rfl, hrow⟩ := h
      obtain ⟨a, rfl, -⟩ := List.map_eq_singleton_iff.mp hrow
      exact ⟨a, rfl⟩
  | _ => simp [label, map, mapM] at h

namespace Grammar

variable {s : Surroundings} {left id : NodeId} {span : Span} {r r₁ : Reader}
  {kind : NodeKind NodeId}

/-- No operator makes a matrix. -/
theorem applyFixity_ne_matrix {op : Operator} (hop : op ∈ standard.operators)
    (h : applyFixity s op left span r = .ok (kind, r₁)) (rows : List (List NodeId)) :
    kind ≠ .matrix rows := by
  rcases Operator.standard_cases hop with ⟨symbol, o, rfl⟩ | rfl | rfl | rfl
    | ⟨symbol, p, a, o, rfl⟩ | ⟨symbol, p, o, rfl⟩
  · obtain ⟨-, -, -, -, -, rfl⟩ := applyFixity_assignment_eq_ok_iff.mp h
    nofun
  · obtain ⟨-, -, -, -, -, -, rfl⟩ := applyFixity_lambda_eq_ok_iff.mp h
    nofun
  · obtain ⟨-, -, rfl⟩ := applyFixity_range_eq_ok_iff.mp h
    nofun
  · obtain ⟨-, -, rfl⟩ := applyFixity_call_eq_ok_iff.mp h
    nofun
  · obtain ⟨-, -, rfl⟩ := applyFixity_binary_eq_ok_iff.mp h
    nofun
  · obtain ⟨rfl, -⟩ := applyFixity_trailing_eq_ok_iff.mp h
    nofun

/-- A chain that gives a matrix gives its first operand. -/
theorem chain_matrix (hs : s.skipIn = standard.skip) {least : UInt8} {n : Nat}
    (h : standard.chain s least n left r = .ok (id, r₁)) {rows : List (List NodeId)}
    (hkind : r₁.forest.kind? id = some (.matrix rows)) (hroom : r₁.forest.size ≤ 4294967295) :
    id = left ∧ r₁ = r := by
  induction n generalizing left r with
  | zero => exact absurd h (fail_ne_ok (r := r))
  | succ n ih =>
      obtain ⟨spaced, r₂, hskip, hcases⟩ := chain_eq_ok_iff.mp h
      rw [Surroundings.skip, hs] at hskip
      obtain ⟨d, -, rfl⟩ := skip_eq_ok_iff.mp hskip
      rcases hcases with ⟨-, rfl, rfl⟩ | ⟨-, found, hfound, ⟨-, rfl, rfl⟩
        | ⟨-, kind, r₃, hkind₃, hchain⟩⟩
      · exact ⟨rfl, rfl⟩
      · exact ⟨rfl, rfl⟩
      · exfalso
        obtain ⟨rfl, rfl⟩ := ih hchain
        rw [Reader.size_afterOperator] at hroom
        rw [Reader.afterOperator_forest, Reader.withNode, Forest.kind?_push hroom] at hkind
        exact applyFixity_ne_matrix (findOperator?_eq_some hfound).1 hkind₃ rows
          (Option.some.inj hkind)

end Grammar

namespace Form

variable {s : Surroundings} {r r₁ : Reader} {id : NodeId}

theorem matrix_read_eq_ok (h : matrix.read s r = .ok (id, r₁)) :
    ∃ rows r₂ span, matrixRows (s.inside .matrix) r.cursor.peekSpan
        ((r.movedTo r.cursor.next).cursor.rest.length + 1) [] [] (r.movedTo r.cursor.next)
          = .ok (rows, r₂)
      ∧ id = r₂.forest.nextId ∧ r₁ = r₂.withNode (.matrix rows) span := by
  simp only [matrix, cursor_bind, next_bind] at h
  obtain ⟨rows, r₂, hrows, hstored⟩ := bind_eq_ok_iff.mp h
  obtain ⟨rfl, rfl⟩ := allocFrom_eq_ok_iff.mp hstored
  exact ⟨rows, r₂, _, within_eq_ok_iff.mp hrows, rfl, rfl⟩

/-- Elements that have been found stay found. -/
theorem matrixRows_length {opener : Span} {n : Nat} {row : List NodeId}
    {rows found : List (List NodeId)} (h : matrixRows s opener n row rows r = .ok (found, r₁)) :
    row.length + rows.flatten.length ≤ found.flatten.length := by
  have hend (row : List NodeId) (rows : List (List NodeId)) :
      (endRow row rows).flatten.length = row.length + rows.flatten.length := by
    unfold endRow
    split
    · rename_i hempty
      rw [List.isEmpty_iff.mp hempty, List.length_nil, Nat.zero_add]
    · rw [List.flatten_cons, List.length_append, List.length_reverse]
  induction n generalizing row rows r with
  | zero => exact absurd h (fail_ne_ok (r := r))
  | succ n ih =>
      obtain ⟨b, r₂, -, c, -, hcases⟩ := matrixRows_eq_ok_iff.mp h
      rcases hcases with ⟨-, rfl, -⟩ | ⟨-, ⟨-, hmore⟩ | ⟨-, ⟨-, hmore⟩ | ⟨-, cell, r₃, -, hmore⟩⟩⟩
      · rw [← hend, List.length_flatten, List.length_flatten, List.map_reverse, List.sum_reverse]
      · have hle := ih hmore
        rwa [hend, List.length_nil, Nat.zero_add] at hle
      · exact ih hmore
      · have hle := ih hmore
        rw [List.length_cons] at hle
        omega

end Form

/-- Where no more statements are found, nothing is added. -/
theorem Surroundings.statementList_last {s : Surroundings} (hs : s.skipIn = Grammar.standard.skip)
    {n : Nat} {found ts : List Statement} {close : Option Char} {r r₁ : Reader}
    (h : s.statementList close n found r = .ok (ts, r₁)) (hlength : ts.length = found.length) :
    ts = found.reverse ∧ r₁.forest = r.forest := by
  induction n generalizing r with
  | zero => exact absurd h (fail_ne_ok (r := r))
  | succ n ih =>
      obtain ⟨b, r₂, hskip, hcases⟩ := statementList_eq_ok_iff.mp h
      rw [skip, hs] at hskip
      obtain ⟨c, -, rfl⟩ := skip_eq_ok_iff.mp hskip
      rcases hcases with ⟨-, rfl, rfl⟩ | ⟨x, -, -, ⟨-, hmore⟩ | ⟨-, root, r₃, -, b', r₄, -, muted,
        r₅, -, hmore⟩⟩
      · exact ⟨rfl, rfl⟩
      · have hdone := ih hmore
        exact hdone
      · have hle := statementList_length hmore
        rw [hlength, List.length_cons] at hle
        exact absurd hle (Nat.not_succ_le_self _)

theorem Forest.Linked.of_push {f : Forest} {node : Node} (h : (f.push node).2.Linked) :
    f.Linked ∧ ∀ id ∈ node.kind.children, id.Below f.size := by
  refine ⟨fun i other hi => h i other ?_, h f.size node ?_⟩
  · rw [get?_push, if_neg (Nat.ne_of_lt (lt_size hi)), hi]
  · rw [get?_push, if_pos rfl]

/-! ### The element of a literal -/

/-- The reader behind the opening bracket of a text that holds one element. -/
def Reader.ofElement (e : List Char) : Reader := ⟨⟨1, e ++ [']']⟩, Forest.empty, none, false⟩

theorem Reader.at_ofElement {e : List Char} (h : Compact (.code 0) e) :
    (Reader.ofElement e).At 0 where
  compact := h.concat
  begun := Nat.one_pos
  offered := nofun

namespace Grammar

variable {e : List Char} {t : Tree} {r r₁ : Reader} {id : NodeId}

/-- An expression in a row leaves the reader in front of a compact text. -/
theorem at_of_expression {fuel : Nat} {least : UInt8} (hat : r.At 0)
    (h : standard.expression fuel .matrix least r = .ok (id, r₁)) : r₁.At 0 := by
  let E : RowPlace := ⟨⟨0, Forest.empty, none, [']']⟩, fun q hq => absurd hq (Option.not_mem_none q),
    separated_mark (by decide) []⟩
  have haround := RowPlace.around_standard (E := E) (Nat.le_refl fuel) .matrix
  exact (haround.expression .outer 0 .matrix least r ⟨rfl, rfl⟩ hat id r₁ h).2.1

/-- The only element of a row that begins with a compact text. -/
theorem matrixRows_single {fuel n : Nat} {opener : Span} {cell : NodeId}
    (hcompact : Compact (.code 0) e)
    (h : Form.matrixRows (.standard .matrix fuel) opener n [] [] (.ofElement e)
      = .ok ([[cell]], r₁)) :
    ∃ r₂ v, standard.expression fuel .matrix 0 (.ofElement e) = .ok (cell, r₂)
      ∧ r₂.At 0 ∧ r₂.cursor.rest = ']' :: v ∧ r₁ = r₂.movedTo r₂.cursor.next := by
  have hseparators : ∀ c ∈ [';', '\n', ','], isSeparator c = true := by decide
  -- in front of an element nothing is skipped, and no separator stands there
  have hstart {r : Reader} (hat : r.At 0) {k : Nat} {row : List NodeId} {found : List (List NodeId)}
      (h : Form.matrixRows (.standard .matrix fuel) opener k row [] r = .ok (found, r₁)) :
      r.cursor.peek? = some ']' ∧ found = (Form.endRow row []).reverse
          ∧ r₁ = r.movedTo r.cursor.next
        ∨ ∃ cell r₂ k, standard.expression fuel .matrix 0 r = .ok (cell, r₂)
          ∧ Form.matrixRows (.standard .matrix fuel) opener k (cell :: row) [] r₂
            = .ok (found, r₁) := by
    rcases k with _ | k
    · exact absurd h (fail_ne_ok (r := r))
    obtain ⟨b, r₂, hskip, c, hpeek, hcases⟩ := Form.matrixRows_eq_ok_iff.mp h
    have hstays := skip_stays (s := .standard .matrix fuel) rfl
      (hat.compact.settled Mode.matrix.flags)
    rw [hstays] at hskip
    cases hskip
    have hplain : c ∉ [';', '\n', ','] := by
      intro hmem
      have hseparator := hat.compact.isSeparator_of_peek? hpeek
      rw [hseparators c hmem] at hseparator
      cases hseparator
    rcases hcases with ⟨rfl, hfound, hend⟩ | ⟨-, ⟨hsep, -⟩ | ⟨-, ⟨rfl, -⟩ | ⟨-, cell, r₂, hcell,
      hmore⟩⟩⟩
    · exact .inl ⟨hpeek, hfound, hend⟩
    · rcases hsep with rfl | rfl <;> exact absurd (by decide) hplain
    · exact absurd (by decide) hplain
    · exact .inr ⟨cell, r₂, k, hcell, hmore⟩
  rcases hstart (Reader.at_ofElement hcompact) h with ⟨-, hfound, -⟩ | ⟨cell', r₂, k, hcell, hmore⟩
  · cases hfound
  have hat₂ := at_of_expression (Reader.at_ofElement hcompact) hcell
  rcases hstart hat₂ hmore with ⟨hpeek, hfound, rfl⟩ | ⟨other, r₃, k', -, hmore⟩
  · obtain ⟨v, hv⟩ := Cursor.rest_of_peek? hpeek
    cases hfound
    exact ⟨r₂, v, hcell, hat₂, hv, rfl⟩
  · have hlength := Form.matrixRows_length hmore
    simp at hlength

/-- A statement of a compact text goes on to the end, unless control flow ends it. -/
theorem rest_of_statementEnd {s : Surroundings} (hs : s.skipIn = standard.skip) {b muted : Bool}
    {r₂ r₃ : Reader} (hcompact : Compact (.code 0) r.cursor.rest)
    (hflow : r.afterControlFlow = false) (hskip : s.skip r = .ok (b, r₂))
    (hend : Surroundings.statementEnd none r₂ = .ok (muted, r₃)) : r.cursor.rest = [] := by
  have hstays := skip_stays hs (hcompact.settled s.mode.flags)
  obtain ⟨-, rfl⟩ := Prod.mk.inj (Except.ok.inj (hstays.symm.trans hskip))
  have hnone (h : r.cursor.peek? = none) : r.cursor.rest = [] := List.head?_eq_none_iff.mp h
  have hplain {x : Char} (hx : isSeparator x = true) : r.cursor.peek? ≠ some x := by
    intro hpeek
    rw [hcompact.isSeparator_of_peek? hpeek] at hx
    cases hx
  rcases Surroundings.statementEnd_eq_ok_iff.mp hend with
    ⟨hpeek | ⟨-, -, hpeek | hcontrol⟩, -⟩ | ⟨⟨hpeek, -⟩ | ⟨hpeek, -⟩, -⟩
  · exact hnone hpeek
  · exact hnone hpeek
  · rw [hflow] at hcontrol
    cases hcontrol
  · exact absurd hpeek (hplain (by decide))
  · exact absurd hpeek (hplain (by decide))

/-- What has been read if a text that starts with a bracket is a matrix of one element: the matrix,
as an operand that no operator continues, and then the end of the statement. -/
theorem exists_rows_of_reads {body : List Char} {p : Program}
    (hparse : standard.parse ('[' :: body) = .ok p)
    (hread : p.statements.map (fun t => ((p.forest.unfold t.root).bare, t.muted))
      = [(.of (.matrix [[t]]), false)]) (hroom : p.forest.size ≤ 4294967295) :
    ∃ cell r₁ span, Form.matrixRows (.standard .matrix (body.length + 1)) ⟨0, 1⟩
        (body.length + 1) [] [] ⟨⟨1, body⟩, Forest.empty, none, false⟩ = .ok ([[cell]], r₁)
      ∧ p.forest = (r₁.withNode (.matrix [[cell]]) span).forest
      ∧ (p.forest.unfold r₁.forest.nextId).bare = .of (.matrix [[t]])
      ∧ ∃ r₂, r₂.cursor = r₁.cursor ∧ r₂.afterControlFlow = false
        ∧ ∃ b r₃ muted r₄, (standard.top ('[' :: body)).skip r₂ = .ok (b, r₃)
          ∧ Surroundings.statementEnd none r₃ = .ok (muted, r₄) := by
  obtain ⟨ts, r_f, hrun, rfl⟩ := exists_of_parse hparse
  obtain ⟨⟨root, muted⟩, rfl, htree⟩ := List.map_eq_singleton_iff.mp hread
  have htree : (r_f.forest.unfold root).bare = .of (.matrix [[t]]) := (Prod.mk.inj htree).1
  have hroom : r_f.forest.size ≤ 4294967295 := hroom
  have hsettled (flags : Flags) : standard.Settled flags (Reader.ofText ('[' :: body)).cursor :=
    settled_of_peek? flags (x := '[') rfl (by decide)
  -- the statement is all there is
  rw [Surroundings.statements, rounds_bind] at hrun
  obtain ⟨root', r₂, hroot, b, r₃, hskip, muted', r₄, hend, hmore⟩ :=
    statementList_more (skip_stays rfl (hsettled _)) (c := '[') rfl (by decide) (by decide) hrun
  obtain ⟨hlast, hforest⟩ := Surroundings.statementList_last rfl hmore rfl
  cases hlast
  have hforest : r_f.forest = r₂.forest := by
    obtain ⟨c, -, rfl⟩ := skip_eq_ok_iff.mp hskip
    rcases Surroundings.statementEnd_eq_ok_iff.mp hend with ⟨-, -, rfl⟩ | ⟨-, rfl⟩
    · exact hforest
    · exact hforest
  -- it is a matrix, so no operator stands behind it
  obtain ⟨kind, hkind, hlabel, -⟩ := Forest.kind?_of_unfoldWith htree
  obtain ⟨cell, rfl⟩ := NodeKind.eq_matrix_of_label hlabel
  rw [hforest] at hkind hroom
  obtain ⟨left, r₅, hoperand, hcases⟩ := expression_eq_ok_iff.mp hroot
  obtain ⟨rfl, rfl⟩ : root = left ∧ r₂ = r₅ := by
    rcases hcases with ⟨-, rfl, rfl⟩ | ⟨-, hchain⟩
    · exact ⟨rfl, rfl⟩
    · exact chain_matrix rfl hchain hkind hroom
  obtain ⟨b₂, r₆, hstart, form, hform, r₇, hread, rfl⟩ := operand_eq_ok_iff.mp hoperand
  have hstays := skip_stays (s := .standard .statement (body.length + 1)) rfl (hsettled _)
  obtain ⟨rfl, rfl⟩ := Prod.mk.inj (Except.ok.inj (hstays.symm.trans hstart))
  obtain rfl : Form.matrix = form :=
    Option.some.inj ((Printing.findForm?_matrix _ _).symm.trans hform)
  obtain ⟨rows, r₁, span, hrows, rfl, rfl⟩ := Form.matrix_read_eq_ok hread
  rw [Reader.afterOperand_forest] at hkind hroom hforest
  rw [Reader.size_withNode] at hroom
  rw [Reader.withNode, Forest.kind?_push hroom] at hkind
  cases hkind
  refine ⟨cell, r₁, span, hrows, hforest, htree, (r₁.withNode (.matrix [[cell]]) span).afterOperand
    Form.matrix r₁.forest.nextId, rfl, ?_, b, r₃, muted, r₄, hskip, hend⟩
  change (((r₁.forest.push ⟨.matrix [[cell]], span⟩).2.kind? r₁.forest.nextId).any
    (·.isControlFlow)) = false
  rw [Forest.kind?_push hroom]
  rfl

/-! ### How an element begins -/

theorem findForm?_leadingMark {x : Char} (hx : x ∈ leadingMarks) (flags : Flags) (v : List Char) :
    standard.findForm? (x :: v) flags = some Form.leading := by
  simp only [leadingMarks, List.mem_cons, List.not_mem_nil, or_false] at hx
  rcases flags with ⟨_, _ | _, _, _⟩ <;> rcases hx with rfl | rfl | rfl | rfl <;> rfl

/-- In a compact text an expression starts with a form right away. -/
theorem exists_form_of_expression {fuel : Nat} {least : UInt8}
    (hcompact : Compact (.code 0) r.cursor.rest)
    (h : standard.expression fuel .matrix least r = .ok (id, r₁)) :
    ∃ n form id' r₂, standard.findForm? r.cursor.rest Mode.matrix.flags = some form
      ∧ form.read (.standard .matrix n) r = .ok (id', r₂) := by
  rcases fuel with _ | n
  · exact absurd h (fail_ne_ok (r := r))
  obtain ⟨left, r₂, hoperand, -⟩ := expression_eq_ok_iff.mp h
  obtain ⟨b, r₃, hskip, form, hform, r₄, hread, -⟩ := operand_eq_ok_iff.mp hoperand
  have hstays := skip_stays (s := .standard .matrix n) rfl (hcompact.settled Mode.matrix.flags)
  obtain ⟨-, rfl⟩ := Prod.mk.inj (Except.ok.inj (hstays.symm.trans hskip))
  exact ⟨n, form, left, r₄, hform, hread⟩

/-- A compact text that is read as an expression begins as an operand does, also behind a sign. -/
theorem opens_of_expression {fuel : Nat} {least : UInt8} (hcompact : Compact (.code 0) e)
    (h : standard.expression fuel .matrix least (.ofElement e) = .ok (id, r₁)) : Opens e := by
  obtain ⟨n, form, id, r₁, hform, hread⟩ :=
    exists_form_of_expression (Reader.at_ofElement hcompact).compact h
  have hform : standard.findForm? (e ++ [']']) Mode.matrix.flags = some form := hform
  refine ⟨hcompact, by rw [hform]; rfl, fun x e' he hx => ?_⟩
  subst he
  have hleading : form = Form.leading :=
    Option.some.inj (hform.symm.trans (findForm?_leadingMark hx _ _))
  subst hleading
  -- behind the sign its operand has been read
  simp only [Form.leading, cursor_bind, next_bind] at hread
  obtain ⟨operand, r₂, hoperand, -⟩ := bind_eq_ok_iff.mp hread
  have hdelimiter : x ∉ delimiters := by
    have hall : ∀ x ∈ leadingMarks, x ∉ delimiters := by decide
    exact hall x hx
  have hbehind : Compact (.code 0) (e' ++ [']']) := by
    rw [← Scan.next_of_not_mem hdelimiter 0]
    exact hcompact.next.concat
  obtain ⟨n', form', id', r₃, hform', -⟩ := exists_form_of_expression
    (r := (Reader.ofElement (x :: e')).movedTo (Reader.ofElement (x :: e')).cursor.next) hbehind
    hoperand
  have hform' : standard.findForm? (e' ++ [']']) Mode.matrix.flags = some form' := hform'
  rw [hform']
  rfl

/-- An element that has been read by itself, up to the closing bracket. -/
structure Element where
  chars : List Char
  opens : Opens chars
  root : NodeId
  reader : Reader
  reads : standard.expression (chars.length + 2) .matrix 0 (.ofElement chars) = .ok (root, reader)
  rest : reader.cursor.rest = [']']
  linked : reader.forest.Linked
  below : root.Below reader.forest.size

namespace Element

def tree (x : Element) : Tree := (x.reader.forest.unfold x.root).bare

def size (x : Element) : Nat := x.reader.forest.size

theorem shown (x : Element) : x.reader.forest.Shows x.root x.tree := ⟨x.below, rfl⟩

end Element

/-- A compact text that is read between brackets as a matrix of one element is that element. The
matrix has a node of its own. -/
theorem exists_element {p : Program} (hcompact : Compact (.code 0) e)
    (hparse : standard.parse ('[' :: (e ++ [']'])) = .ok p)
    (hread : p.statements.map (fun t => ((p.forest.unfold t.root).bare, t.muted))
      = [(.of (.matrix [[t]]), false)]) (hroom : p.forest.size ≤ 4294967295) :
    ∃ x : Element, x.chars = e ∧ x.tree = t ∧ x.size + 1 = p.forest.size := by
  obtain ⟨hlinked, -⟩ := linked_of_parse hparse
  obtain ⟨cell, r₁, span, hrows, hforest, htree, r₂, hcursor, hflow, b, r₃, muted, r₄, hskip,
    hend⟩ := exists_rows_of_reads hparse hread hroom
  obtain ⟨reader, v, hcell, hat, hrest, rfl⟩ := matrixRows_single hcompact hrows
  -- nothing stands behind the bracket that closes the matrix
  obtain rfl : v = [] := by
    have hnext : reader.cursor.next = ⟨reader.cursor.offset + ']'.utf8Size, v⟩ :=
      Cursor.next_cons hrest
    have hbehind : Compact (.code 0) r₂.cursor.rest := by
      rw [hcursor]
      exact hat.compact.rest_next (Cursor.peek?_cons hrest)
    have hnil := rest_of_statementEnd rfl hbehind hflow hskip hend
    rwa [hcursor, Reader.movedTo_cursor, hnext] at hnil
  have hsize : reader.forest.size + 1 = p.forest.size := by
    rw [hforest, Reader.size_withNode]
    rfl
  rw [hforest, Reader.withNode] at hlinked htree
  obtain ⟨hlinked₁, hbelow⟩ := hlinked.of_push
  have hroom₁ : reader.forest.size < 4294967295 := by omega
  have hshown := (Forest.shows_push hlinked₁ hroom₁ hbelow span).2
  have hsame := htree.symm.trans hshown
  rw [NodeKind.map_matrix, Tree.of, Tree.of, NodeKind.children_matrix,
    NodeKind.children_matrix] at hsame
  have hchild : cell ∈ (NodeKind.matrix [[cell]]).children := by
    rw [NodeKind.children_matrix]
    exact List.mem_singleton.mpr rfl
  have hcell' : standard.expression (e.length + 2) .matrix 0 (.ofElement e)
      = .ok (cell, reader) := by
    rw [List.length_append] at hcell
    exact hcell
  exact ⟨⟨e, opens_of_expression hcompact hcell', cell, reader, hcell', hrest, hlinked₁,
    hbelow cell hchild⟩, rfl, (List.cons.inj (Tree.node.inj hsame).2.2).1.symm, hsize⟩

end Grammar

end MatrixScript
