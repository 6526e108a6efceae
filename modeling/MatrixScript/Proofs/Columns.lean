import Mathlib.Algebra.Order.BigOperators.Group.List
import Mathlib.Algebra.Order.Group.Nat
import MatrixScript.Proofs.Columns.Literals
import MatrixScript.Proofs.Reading.Flow

/-!
# Columns

Blanks separate the columns of a matrix as commas do. An element that is read by itself between
brackets is read alike in a row of such elements, whichever of the two stands behind it: what
follows is never taken for an operator of the element, and the element is never cut short.
-/

namespace MatrixScript

open Reading Grammar

/-! ### Nodes behind others -/

theorem NodeId.Below.shift {id : NodeId} {m n : Nat} (h : id.Below n) (hroom : m + n ≤ 4294967295) :
    (id.shift m).Below (m + n) := by
  rcases h with rfl | hlt
  · exact .inl (shift_absent m)
  · refine .inr ?_
    rw [shift_index (by omega)]
    omega

namespace Forest

variable {f g : Forest} {id : NodeId} {t : Tree}

theorem Linked.followedBy (hf : f.Linked) (hg : g.Linked) (hroom : f.size + g.size ≤ 4294967295)
    (bytes : Nat) : (f.followedBy bytes g).Linked := by
  intro i node hnode id hid
  by_cases hi : i < f.size
  · rw [(f.extends_followedBy bytes g).2 i hi] at hnode
    exact hf i node hnode id hid
  · obtain ⟨j, rfl⟩ : ∃ j, i = f.size + j := ⟨i - f.size, by omega⟩
    have hsize : f.nodes.size = f.size := rfl
    rw [Forest.followedBy, ← hsize, Array.getElem?_append_right (Nat.le_add_right _ _),
      Nat.add_sub_cancel_left, Array.getElem?_map, Option.map_eq_some_iff] at hnode
    obtain ⟨inner, hinner, rfl⟩ := hnode
    have hj := lt_size hinner
    rw [Node.shift, NodeKind.children_map] at hid
    obtain ⟨child, hchild, rfl⟩ := List.mem_map.mp hid
    exact (hg j inner hinner child hchild).shift (by omega)

theorem Shows.followedBy (h : g.Shows id t) (hlinked : g.Linked)
    (hroom : f.size + g.size ≤ 4294967295) (bytes : Nat) :
    (f.followedBy bytes g).Shows (id.shift f.size) t := by
  refine ⟨?_, ?_⟩
  · rw [size_followedBy]
    exact h.1.shift hroom
  · rw [← h.2]
    refine unfold_congr hlinked (by omega) (fun id _ => kind?_followedBy hroom bytes id) h.1 ?_
    rcases h.1 with rfl | hlt
    · exact .inl rfl
    · refine .inr ?_
      rw [NodeId.shift_index (by omega)]
      omega

end Forest

/-- A reader in a row, in front of an element. What was offered to it was offered further left. -/
structure Reader.InRow (r : Reader) : Prop where
  begun : 0 < r.cursor.offset
  linked : r.forest.Linked
  spent : ∀ q ∈ r.premise, q.2 < r.cursor.offset

namespace Grammar

variable {fuel k : Nat} {r r₀ : Reader} {b : Bool} {c : Char} {e tail d : List Char}
  {es : List (List Char)} {x : Element} {xs : List Element}

/-! ### One element -/

/-- An element that has been read by itself is read again in a row. -/
theorem Element.reads_again (x : Element) (htail : Separated tail) (hr : r.InRow)
    (hrest : r.cursor.rest = x.chars ++ tail) (hfuel : x.chars.length + 2 ≤ fuel)
    (hroom : r.forest.size + x.size ≤ 4294967295) :
    ∃ id r₁, standard.expression fuel .matrix 0 r = .ok (id, r₁) ∧ r.Behind r₁ id x.tree
      ∧ r₁.cursor.rest = tail ∧ r₁.forest.size = r.forest.size + x.size
      ∧ ∀ q ∈ r₁.premise, q.2 ≤ r₁.cursor.offset := by
  have hbegun := hr.begun
  let E : RowPlace := ⟨⟨r.cursor.offset - 1, r.forest, r.premise, tail⟩,
    fun q hq => Nat.le_sub_one_of_lt (hr.spent q hq), htail⟩
  have haround := RowPlace.around_standard (E := E) hfuel .matrix
  obtain ⟨-, hat, hfollows⟩ := haround.expression .outer 0 .matrix 0 _ ⟨rfl, rfl⟩
    (Reader.at_ofElement x.opens.compact) x.root x.reader x.reads
  have hread := (hfollows ⟨[], x.rest⟩).2 hroom
  -- the row is read from here, but for the memory of what stood before
  have hstart : E.reader (.ofElement x.chars) = r.flowing false := by
    have hcursor : E.cursor ⟨1, x.chars ++ [']']⟩ = r.cursor := by
      have hoffset : 1 + (r.cursor.offset - 1) = r.cursor.offset := by omega
      change (⟨1 + (r.cursor.offset - 1), _⟩ : Cursor) = _
      rw [List.dropLast_concat, hoffset, ← hrest]
    change (⟨E.cursor ⟨1, x.chars ++ [']']⟩, r.forest.followedBy _ Forest.empty, r.premise,
      false⟩ : Reader) = _
    rw [hcursor, Forest.followedBy_empty]
    rfl
  rw [hstart] at hread
  have hread' := (standard_renews .matrix fuel).expression .matrix 0 _ _ _ hread r.afterControlFlow
  refine ⟨_, E.reader x.reader, hread', ⟨?_, ?_, ?_⟩, ?_, Forest.size_followedBy _ _ _,
    fun q hq => ?_⟩
  · exact hr.linked.followedBy x.linked hroom _
  · exact r.forest.extends_followedBy _ _
  · exact x.shown.followedBy x.linked hroom _
  · change x.reader.cursor.rest.dropLast ++ tail = tail
    rw [x.rest]
    rfl
  · change q.2 ≤ x.reader.cursor.offset + (r.cursor.offset - 1)
    rcases Option.or_eq_some_iff.mp hq with hq | ⟨-, hq⟩
    · obtain ⟨q', hq', rfl⟩ := Option.map_eq_some_iff.mp hq
      exact Nat.add_le_add_right (hat.offered q' hq').2 _
    · have hspent := hr.spent q hq
      omega

/-- The reader of a row passes an element. -/
theorem element_passed (x : Element) (htail : Separated tail)
    (hskip : (Surroundings.standard .matrix fuel).skip r₀ = .ok (b, r)) (hr : r.InRow)
    (hrest : r.cursor.rest = x.chars ++ tail) (hfuel : x.chars.length + 2 ≤ fuel)
    (hroom : r.forest.size + x.size ≤ 4294967295) :
    ∃ id r₁, r.Behind r₁ id x.tree ∧ r₁.cursor.rest = tail
      ∧ r₁.forest.size = r.forest.size + x.size
      ∧ (∀ q ∈ r₁.premise, q.2 ≤ r₁.cursor.offset)
      ∧ ∀ opener k found rows p,
        Form.matrixRows (.standard .matrix fuel) opener k (id :: found) rows r₁ = .ok p →
        Form.matrixRows (.standard .matrix fuel) opener (k + 1) found rows r₀ = .ok p := by
  obtain ⟨id, r₁, hread, hbehind, hrest₁, hsize, hoffered⟩ :=
    x.reads_again htail hr hrest hfuel hroom
  obtain ⟨a, e', hhead, htrigger, hmarks⟩ := x.opens.head
  have hpeek : r.cursor.peek? = some a := by
    rw [hhead] at hrest
    exact Cursor.peek?_cons hrest
  have hline : a ≠ '\n' := by
    rintro rfl
    exact htrigger (by decide)
  simp only [List.mem_cons, List.not_mem_nil, or_false, not_or] at hmarks
  obtain ⟨hclose, hsemi, hcomma⟩ := hmarks
  refine ⟨id, r₁, hbehind, hrest₁, hsize, hoffered, fun opener k found rows p hmore => ?_⟩
  exact Form.matrixRows_eq_ok_iff.mpr ⟨b, r, hskip, a, hpeek, .inr
    ⟨hclose, .inr ⟨not_or.mpr ⟨hsemi, hline⟩, .inr ⟨hcomma, id, r₁, hread, hmore⟩⟩⟩⟩

/-- A separator is passed, and then nothing is left to pass before the next element. -/
theorem separator_passed (hc : c ∈ [',', ' ']) (hrest : r.cursor.rest = c :: d)
    (hd : Grammar.Plain d) (hk : d.length + 1 < k) :
    ∃ r₀ b k', (Surroundings.standard .matrix fuel).skip r₀ = .ok (b, r.movedTo r.cursor.next)
      ∧ d.length < k' ∧ ∀ opener found rows p,
        Form.matrixRows (.standard .matrix fuel) opener k' found rows r₀ = .ok p →
        Form.matrixRows (.standard .matrix fuel) opener k found rows r = .ok p := by
  have hnext : r.cursor.next = ⟨r.cursor.offset + c.utf8Size, d⟩ := Cursor.next_cons hrest
  have hsettled : standard.Settled Mode.matrix.flags r.cursor.next := by
    rw [hnext]
    exact Grammar.Plain.settled hd _
  simp only [List.mem_cons, List.not_mem_nil, or_false] at hc
  rcases hc with rfl | rfl
  · obtain ⟨k, rfl⟩ : ∃ j, k = j + 1 := ⟨k - 1, by omega⟩
    have hstays : (Surroundings.standard .matrix fuel).skip r = .ok (false, r) :=
      skip_stays rfl (settled_of_peek? _ (Cursor.peek?_cons hrest) (by decide))
    refine ⟨r.movedTo r.cursor.next, false, k, skip_stays rfl hsettled, by omega,
      fun opener found rows p hmore => ?_⟩
    exact Form.matrixRows_eq_ok_iff.mpr ⟨false, r, hstays, ',', Cursor.peek?_cons hrest, .inr
      ⟨by decide, .inr ⟨by decide, .inl ⟨rfl, hmore⟩⟩⟩⟩
  · rw [hnext] at hsettled ⊢
    exact ⟨r, true, k, skip_blank rfl hrest hsettled, by omega, fun _ _ _ _ hmore => hmore⟩

/-! ### Rows -/

/-- The elements with a separator between them, and the closing bracket. -/
def rowTail (c : Char) (es : List (List Char)) : List Char := [c].intercalate es ++ [']']

theorem rowTail_singleton (c : Char) (e : List Char) : rowTail c [e] = e ++ [']'] := by
  rw [rowTail, List.intercalate_singleton]

theorem rowTail_cons_cons (c : Char) (e e' : List Char) (es : List (List Char)) :
    rowTail c (e :: e' :: es) = e ++ c :: rowTail c (e' :: es) := by
  rw [rowTail, List.intercalate_cons_cons, List.append_assoc, List.append_assoc]
  rfl

/-- Behind an element of a row stands the separator or the closing bracket. -/
theorem exists_mark (hc : c ∈ [',', ' ']) (e : List Char) (es : List (List Char)) :
    ∃ y u, rowTail c (e :: es) = e ++ y :: u ∧ y ∈ marks := by
  have hall : ∀ c ∈ [',', ' '], c ∈ marks := by decide
  cases es with
  | nil => exact ⟨']', [], rowTail_singleton c e, by decide⟩
  | cons e' es => exact ⟨c, rowTail c (e' :: es), rowTail_cons_cons c e e' es, hall c hc⟩

theorem separated_rowTail (hc : c ∈ [',', ' ']) (he : Opens e) (es : List (List Char)) :
    Separated (c :: rowTail c (e :: es)) := by
  have hcases := hc
  simp only [List.mem_cons, List.not_mem_nil, or_false] at hcases
  rcases hcases with rfl | rfl
  · exact separated_mark (by decide) _
  · obtain ⟨y, u, hmark, hy⟩ := exists_mark hc e es
    rw [hmark]
    exact separated_blank he hy u

theorem plain_rowTail (hc : c ∈ [',', ' ']) (he : Opens e) (es : List (List Char)) :
    Grammar.Plain (rowTail c (e :: es)) := by
  obtain ⟨y, u, hmark, -⟩ := exists_mark hc e es
  obtain ⟨a, e', rfl, htrigger, -⟩ := he.head
  rw [hmark]
  intro z hz
  cases hz
  exact htrigger

/-- What was offered is offered in front of the next element no more. -/
theorem inRow_movedTo (hlinked : r.forest.Linked)
    (hoffered : ∀ q ∈ r.premise, q.2 ≤ r.cursor.offset) (hrest : r.cursor.rest = c :: tail) :
    (r.movedTo r.cursor.next).InRow := by
  have hnext : (r.movedTo r.cursor.next).cursor.offset = r.cursor.offset + c.utf8Size := by
    rw [Reader.movedTo_cursor, Cursor.next_cons hrest]
  have hbyte := c.utf8Size_pos
  refine ⟨?_, hlinked, fun q hq => ?_⟩
  · rw [hnext]
    omega
  · have hle := hoffered q hq
    rw [hnext]
    omega

/-- The elements of a row are read one after the other, up to the closing bracket. -/
theorem row_reads (hc : c ∈ [',', ' ']) (hne : xs ≠ []) (opener : Span) (found : List NodeId)
    (hskip : (Surroundings.standard .matrix fuel).skip r₀ = .ok (b, r)) (hr : r.InRow)
    (hrest : r.cursor.rest = rowTail c (xs.map (·.chars)))
    (hfuel : ∀ x ∈ xs, x.chars.length + 2 ≤ fuel)
    (hroom : r.forest.size + (xs.map (·.size)).sum ≤ 4294967295)
    (hk : r.cursor.rest.length < k) :
    ∃ ids r₁, Form.matrixRows (.standard .matrix fuel) opener k found [] r₀
        = .ok ([found.reverse ++ ids], r₁)
      ∧ r₁.forest.Linked ∧ r.forest.Extends r₁.forest
      ∧ List.Forall₂ r₁.forest.Shows ids (xs.map (·.tree))
      ∧ r₁.forest.size = r.forest.size + (xs.map (·.size)).sum ∧ r₁.cursor.rest = [] := by
  induction xs generalizing r₀ r b found k with
  | nil => exact absurd rfl hne
  | cons x xs ih =>
      have hfuel₁ := hfuel x List.mem_cons_self
      have hpos := List.length_pos_iff.mpr x.opens.ne_nil
      rw [List.map_cons, List.sum_cons] at hroom
      obtain ⟨k, rfl⟩ : ∃ j, k = j + 1 := ⟨k - 1, by omega⟩
      cases xs with
      | nil =>
          rw [List.map_singleton, rowTail_singleton] at hrest
          rw [hrest, List.length_append, List.length_singleton] at hk
          obtain ⟨k, rfl⟩ : ∃ j, k = j + 1 := ⟨k - 1, by omega⟩
          obtain ⟨id, r₁, hbehind, hrest₁, hsize, -, hround⟩ := element_passed x
            (separated_mark (by decide) []) hskip hr hrest hfuel₁ (by omega)
          have hstays : (Surroundings.standard .matrix fuel).skip r₁ = .ok (false, r₁) :=
            skip_stays rfl (settled_of_peek? _ (Cursor.peek?_cons hrest₁) (by decide))
          have hrow : (Form.endRow (id :: found) []).reverse = [found.reverse ++ [id]] := by
            simp [Form.endRow]
          refine ⟨[id], _, hround _ _ _ _ _ (Form.matrixRows_eq_ok_iff.mpr ⟨false, r₁, hstays, ']',
            Cursor.peek?_cons hrest₁, .inl ⟨rfl, hrow.symm, rfl⟩⟩), hbehind.linked, hbehind.grown,
            .cons hbehind.shown .nil, hsize, ?_⟩
          rw [Reader.movedTo_cursor, Cursor.next_cons hrest₁]
      | cons x₂ xs =>
          have hx₂ := x₂.opens
          rw [List.map_cons, List.map_cons, rowTail_cons_cons] at hrest
          rw [hrest, List.length_append, List.length_cons] at hk
          obtain ⟨id, r₁, hbehind, hrest₁, hsize, hoffered, hround⟩ := element_passed x
            (separated_rowTail hc hx₂ _) hskip hr hrest hfuel₁ (by omega)
          obtain ⟨r₂, b₂, k', hskip₂, hk', hpass⟩ :=
            separator_passed (k := k) hc hrest₁ (plain_rowTail hc hx₂ _) (by omega)
          have hin := inRow_movedTo hbehind.linked hoffered hrest₁
          have hrest₂ : (r₁.movedTo r₁.cursor.next).cursor.rest = _ :=
            congrArg Cursor.rest (Cursor.next_cons hrest₁)
          obtain ⟨ids, r₃, hread, hlinked, hgrown, hshown, hsize₃, hend⟩ :=
            ih (List.cons_ne_nil _ _) (id :: found)
            hskip₂ hin hrest₂ (fun y hy => hfuel y (List.mem_cons_of_mem _ hy))
            (by rw [Reader.movedTo_forest]; omega) (by rw [hrest₂]; exact hk')
          rw [Reader.movedTo_forest] at hgrown hsize₃
          rw [List.reverse_cons, List.append_assoc, List.singleton_append] at hread
          have hfirst := hbehind.shown.extends hgrown hbehind.linked (by omega)
          refine ⟨id :: ids, r₃, hround _ _ _ _ _ (hpass _ _ _ _ hread), hlinked,
            hbehind.grown.trans hgrown, .cons hfirst hshown, ?_, hend⟩
          rw [List.map_cons, List.sum_cons]
          omega

theorem length_le_rowTail (c : Char) (he : e ∈ es) : e.length + 1 ≤ (rowTail c es).length := by
  induction es with
  | nil => exact absurd he List.not_mem_nil
  | cons first es ih =>
      cases es with
      | nil =>
          rw [List.mem_singleton.mp he, rowTail_singleton, List.length_append,
            List.length_singleton]
      | cons second es =>
          rw [rowTail_cons_cons, List.length_append, List.length_cons]
          rcases List.mem_cons.mp he with rfl | he
          · omega
          · have hle := ih he
            omega

/-! ### Whole texts -/

/-- A text whose rows end where it does is a matrix. -/
theorem parse_matrix {rows : List (List NodeId)} {r₁ : Reader}
    (hread : Form.matrixRows (.standard .matrix ('[' :: d).length)
      (Reader.ofText ('[' :: d)).cursor.peekSpan (d.length + 1) [] []
        ((Reader.ofText ('[' :: d)).movedTo (Reader.ofText ('[' :: d)).cursor.next)
          = .ok (rows, r₁))
    (hend : r₁.cursor.rest = [])
    (hflow : ∀ span, ((r₁.withNode (.matrix rows) span).forest.kind? r₁.forest.nextId).any
      (·.isControlFlow) = false) :
    ∃ span, standard.parse ('[' :: d)
      = .ok ⟨(r₁.withNode (.matrix rows) span).forest, [⟨r₁.forest.nextId, false⟩]⟩ := by
  let text := '[' :: d
  let r := Reader.ofText text
  have hsettled (flags : Flags) : standard.Settled flags r.cursor :=
    settled_of_peek? flags (x := '[') rfl (by decide)
  obtain ⟨span, hmatrix⟩ := Printing.matrix_read (s := .standard .statement text.length) hread
  have hoperand : standard.operand (.standard .statement text.length) r = .ok (r₁.forest.nextId,
      (r₁.withNode (.matrix rows) span).afterOperand Form.matrix r₁.forest.nextId) :=
    operand_eq_ok_iff.mpr ⟨false, r, skip_stays rfl (hsettled _), Form.matrix,
      Printing.findForm?_matrix _ _, _, hmatrix, rfl⟩
  have hroot : (standard.top text).expression r = .ok (r₁.forest.nextId,
      (r₁.withNode (.matrix rows) span).afterOperand Form.matrix r₁.forest.nextId) :=
    expression_eq_ok_iff.mpr ⟨_, _, hoperand, .inr ⟨hflow span, chain_atEnd rfl hend⟩⟩
  have hstatements := statements_single (s := standard.top text) (c := '[') rfl rfl
    (hsettled _) (by decide) hroot hend
  have hparse := parse_of_statements hstatements
  exact ⟨span, hparse⟩

/-- A row of elements is read as the matrix of what they are read as by themselves. -/
theorem reads_row (hc : c ∈ [',', ' ']) (hne : xs ≠ [])
    (hroom : (xs.map (·.size)).sum < 4294967295) :
    Reads ('[' :: rowTail c (xs.map (·.chars))) [(.of (.matrix [xs.map (·.tree)]), false)] := by
  let text := '[' :: rowTail c (xs.map (·.chars))
  let r := Reader.ofText text
  have hplain : Grammar.Plain (rowTail c (xs.map (·.chars))) := by
    cases xs with
    | nil => exact absurd rfl hne
    | cons x xs => exact plain_rowTail hc x.opens _
  have hinside : (Surroundings.standard .matrix text.length).skip
      (r.movedTo r.cursor.next) = .ok (false, r.movedTo r.cursor.next) :=
    skip_stays rfl (Grammar.Plain.settled (c := r.cursor.next) hplain _)
  have hin : (r.movedTo r.cursor.next).InRow := ⟨Nat.one_pos, Reader.linked_ofText text, nofun⟩
  have hstart : (r.movedTo r.cursor.next).forest.size = 0 := rfl
  have hlength : text.length = (rowTail c (xs.map (·.chars))).length + 1 := List.length_cons
  have hfuel : ∀ x ∈ xs, x.chars.length + 2 ≤ text.length := by
    intro x hx
    have hle := length_le_rowTail c (List.mem_map_of_mem (f := (·.chars)) hx)
    omega
  obtain ⟨ids, r₁, hread, hlinked, -, hshown, hsize, hend⟩ := row_reads hc hne r.cursor.peekSpan []
    hinside hin rfl hfuel (by omega) (Nat.lt_succ_self _)
  have hroom₁ : r₁.forest.size < 4294967295 := by omega
  obtain ⟨span, hparse⟩ := parse_matrix hread hend fun span =>
    congrArg (Option.any NodeKind.isControlFlow) (Forest.kind?_push hroom₁ ⟨.matrix [ids], span⟩)
  refine ⟨_, hparse, ?_⟩
  obtain ⟨hids, htrees⟩ := Printing.unfold_of_shows hshown
  have hbelow : ∀ id ∈ (NodeKind.matrix [ids]).children, id.Below r₁.forest.size := by
    rw [NodeKind.children_matrix, List.flatten_singleton]
    exact hids
  have htree := (Forest.shows_push hlinked hroom₁ hbelow span).2
  rw [NodeKind.map_matrix, List.map_singleton, htrees] at htree
  exact congrArg (fun t => [(t, false)]) htree

/-- A text that is read by itself between brackets as a matrix of one element, and that holds no
comment and no separator outside of brackets and text literals. -/
structure Column where
  chars : List Char
  program : Program
  tree : Tree
  compact : Compact (.code 0) chars
  parse : standard.parse ('[' :: (chars ++ [']'])) = .ok program
  reads : program.statements.map (fun t => ((program.forest.unfold t.root).bare, t.muted))
    = [(.of (.matrix [[tree]]), false)]

theorem exists_elements {columns : List Column}
    (hroom : ∀ x ∈ columns, x.program.forest.size ≤ 4294967295) :
    ∃ xs : List Element, xs.map (·.chars) = columns.map (·.chars)
      ∧ xs.map (·.tree) = columns.map (·.tree)
      ∧ xs.map (·.size) = columns.map (·.program.forest.size - 1) := by
  induction columns with
  | nil => exact ⟨[], rfl, rfl, rfl⟩
  | cons column columns ih =>
      obtain ⟨x, hchars, htree, hsize⟩ := exists_element column.compact column.parse column.reads
        (hroom column List.mem_cons_self)
      obtain ⟨xs, hcharss, htrees, hsizes⟩ := ih fun y hy => hroom y (List.mem_cons_of_mem _ hy)
      refine ⟨x :: xs, ?_, ?_, ?_⟩
      · rw [List.map_cons, List.map_cons, hchars, hcharss]
      · rw [List.map_cons, List.map_cons, htree, htrees]
      · rw [List.map_cons, List.map_cons, hsizes, ← hsize, Nat.add_sub_cancel]

/-- Blanks separate the columns of a matrix as commas do. There have to be enough numbers for the
nodes of the row: those that each column has by itself, but for the matrix around it, and one for
the matrix around all of them. -/
theorem reads_columns {columns : List Column} (hne : columns ≠ [])
    (hroom : (columns.map (·.program.forest.size - 1)).sum < 4294967295) :
    Reads ('[' :: ([' '].intercalate (columns.map (·.chars)) ++ [']']))
        [(.of (.matrix [columns.map (·.tree)]), false)]
      ∧ Reads ('[' :: ([','].intercalate (columns.map (·.chars)) ++ [']']))
        [(.of (.matrix [columns.map (·.tree)]), false)] := by
  have hroom₁ : ∀ x ∈ columns, x.program.forest.size ≤ 4294967295 := by
    intro x hx
    have hle : x.program.forest.size - 1 ≤ (columns.map (·.program.forest.size - 1)).sum :=
      List.single_le_sum (fun n _ => Nat.zero_le n) _ (List.mem_map.mpr ⟨x, hx, rfl⟩)
    omega
  obtain ⟨xs, hchars, htrees, hsizes⟩ := exists_elements hroom₁
  have hxs : xs ≠ [] := by
    rintro rfl
    rw [List.map_nil, eq_comm, List.map_eq_nil_iff] at hchars
    exact hne hchars
  rw [← hchars, ← htrees]
  rw [← hsizes] at hroom
  exact ⟨reads_row (by decide) hxs hroom, reads_row (by decide) hxs hroom⟩

/-- The quote ends its element, the sign begins one, and the separators of the tuple are inside. -/
theorem reads_columns_quote : Reads "[a' -b (c, d)]".toList
      [(.of (.matrix [[.of (.unary .transpose (.of (.name "a"))),
        .of (.unary .neg (.of (.name "b"))),
        .of (.tuple [.of (.name "c"), .of (.name "d")])]]), false)]
    ∧ Reads "[a',-b,(c, d)]".toList
      [(.of (.matrix [[.of (.unary .transpose (.of (.name "a"))),
        .of (.unary .neg (.of (.name "b"))),
        .of (.tuple [.of (.name "c"), .of (.name "d")])]]), false)] := by
  let quoted : Column := {
    chars := ['a', '\'']
    program := ⟨⟨#[⟨.name "a", ⟨1, 2⟩⟩, ⟨.unary .transpose ⟨0⟩, ⟨1, 3⟩⟩,
      ⟨.matrix [[⟨1⟩]], ⟨0, 4⟩⟩]⟩, [⟨⟨2⟩, false⟩]⟩
    tree := .of (.unary .transpose (.of (.name "a")))
    compact := by decide
    parse := by decide +kernel
    reads := rfl }
  let signed : Column := {
    chars := ['-', 'b']
    program := ⟨⟨#[⟨.name "b", ⟨2, 3⟩⟩, ⟨.unary .neg ⟨0⟩, ⟨1, 3⟩⟩,
      ⟨.matrix [[⟨1⟩]], ⟨0, 4⟩⟩]⟩, [⟨⟨2⟩, false⟩]⟩
    tree := .of (.unary .neg (.of (.name "b")))
    compact := by decide
    parse := by decide +kernel
    reads := rfl }
  let pair : Column := {
    chars := ['(', 'c', ',', ' ', 'd', ')']
    program := ⟨⟨#[⟨.name "c", ⟨2, 3⟩⟩, ⟨.name "d", ⟨5, 6⟩⟩, ⟨.tuple [⟨0⟩, ⟨1⟩], ⟨1, 7⟩⟩,
      ⟨.matrix [[⟨2⟩]], ⟨0, 8⟩⟩]⟩, [⟨⟨3⟩, false⟩]⟩
    tree := .of (.tuple [.of (.name "c"), .of (.name "d")])
    compact := by decide
    parse := by decide +kernel
    reads := rfl }
  exact @reads_columns [quoted, signed, pair] (List.cons_ne_nil _ _) (by decide)

/-! ### More elements than numbers -/

/-- The end of a row of names with blanks in front of them. -/
def namesTail : Nat → List Char
  | 0 => [']']
  | n + 1 => ' ' :: 'x' :: namesTail n

theorem rowTail_replicate (n : Nat) :
    rowTail ' ' (List.replicate (n + 1) ['x']) = 'x' :: namesTail n := by
  induction n with
  | zero => rfl
  | succ n ih =>
      rw [List.replicate_succ, List.replicate_succ, rowTail_cons_cons, ← List.replicate_succ, ih]
      rfl

theorem namesTail_endsWord (n : Nat) : EndsWord (namesTail n) := by
  cases n <;> exact fun c hc => by cases hc; decide

/-- No operator stands between two names. -/
theorem namesTail_halts (n : Nat) : Printing.Halts .matrix 0 (namesTail n) := by
  cases n with
  | zero => exact Printing.halts_closing (by decide) []
  | succ n =>
      intro fuel least k id r _ hrest
      have hplain : Grammar.Plain ('x' :: namesTail n) := by
        rintro x ⟨⟩
        decide
      have hskip := skip_blank (s := .standard .matrix fuel) rfl hrest
        (hplain.settled (c := ⟨_, _⟩) _)
      exact chain_eq_ok_iff.mpr ⟨true, _, hskip, .inl ⟨rfl, rfl, rfl⟩⟩

/-- By induction on the names: each of them is one more element, and one more node. -/
theorem namesTail_read {n : Nat} (fuel : Nat) {ks : List (NodeKind NodeId)} {found : List NodeId}
    (hfound : found ≠ []) (h : r.Stores ks (namesTail n)) (hk : n < k) (opener : Span) :
    ∃ ids r₁, Form.matrixRows (.standard .matrix (fuel + 1)) opener k found [] r = .ok ([ids], r₁)
      ∧ r₁.Stores (ks ++ List.replicate n (.name "x")) [] := by
  obtain ⟨k, rfl⟩ : ∃ j, k = j + 1 := ⟨k - 1, by omega⟩
  induction n generalizing r ks found k with
  | zero =>
      have hrow : [found.reverse] = (Form.endRow found []).reverse := by
        rw [Form.endRow, List.isEmpty_eq_false_iff.mpr hfound]
        rfl
      have hclose : r.cursor.peek? = some ']' := Cursor.peek?_cons h.rest
      have hstays : (Surroundings.standard .matrix (fuel + 1)).skip r = .ok (false, r) :=
        skip_stays rfl (settled_of_peek? _ hclose (by decide))
      refine ⟨found.reverse, r.movedTo r.cursor.next, ?_, ?_⟩
      · exact Form.matrixRows_eq_ok_iff.mpr ⟨false, r, hstays, ']', hclose, .inl ⟨rfl, hrow, rfl⟩⟩
      · rw [List.replicate_zero, List.append_nil]
        exact h.movedTo (congrArg Cursor.rest (Cursor.next_cons h.rest))
  | succ n ih =>
      obtain ⟨k, rfl⟩ : ∃ j, k = j + 1 := ⟨k - 1, by omega⟩
      have hplain : Grammar.Plain ('x' :: namesTail n) := by
        rintro x ⟨⟩
        decide
      have hskip := skip_blank (s := .standard .matrix (fuel + 1)) rfl h.rest
        (hplain.settled (c := ⟨_, _⟩) _)
      obtain ⟨r₁, hread, hstored⟩ := Crowd.name_read .matrix fuel 0
        (h.movedTo_mk (r.cursor.offset + 1) ('x' :: namesTail n)) (namesTail_endsWord n)
        (namesTail_halts n) (Nat.le_refl _)
      obtain ⟨ids, r₂, hrows, hall⟩ := ih (List.cons_ne_nil _ _) hstored k (by omega)
      refine ⟨ids, r₂, ?_, ?_⟩
      · exact Form.matrixRows_eq_ok_iff.mpr ⟨true, _, hskip, 'x', rfl, .inr ⟨by decide, .inr
          ⟨by decide, .inr ⟨by decide, _, r₁, hread, hrows⟩⟩⟩⟩
      · rw [List.replicate_succ, List.append_cons]
        exact hall

theorem length_namesTail (n : Nat) : (namesTail n).length = 2 * n + 1 := by
  induction n with
  | zero => rfl
  | succ n ih => rw [namesTail, List.length_cons, List.length_cons, ih, Nat.mul_succ]

/-- A row of names is stored as their nodes, with that of the matrix behind them. -/
theorem parse_names (n : Nat) : ∃ f ids,
    standard.parse ('[' :: 'x' :: namesTail n) = .ok ⟨f, [⟨.ofPlace (n + 1), false⟩]⟩
      ∧ f.kinds = List.replicate (n + 1) (.name "x") ++ [.matrix [ids]] := by
  let text := '[' :: 'x' :: namesTail n
  let r := Reader.ofText text
  have hstart : (r.movedTo r.cursor.next).Stores [] ('x' :: namesTail n) :=
    (Crowd.stores_ofText text).movedTo rfl
  have hplain : Grammar.Plain ('x' :: namesTail n) := by
    rintro x ⟨⟩
    decide
  have hskip : (Surroundings.standard .matrix text.length).skip (r.movedTo r.cursor.next)
      = .ok (false, r.movedTo r.cursor.next) :=
    skip_stays rfl (hplain.settled (c := r.cursor.next) _)
  obtain ⟨r₁, hread, hstored⟩ := Crowd.name_read .matrix ('x' :: namesTail n).length 0
    hstart (namesTail_endsWord n) (namesTail_halts n) (Nat.le_refl _)
  have hrounds : n < (namesTail n).length + 1 := by
    rw [length_namesTail]
    omega
  obtain ⟨ids, r₂, hrows, hall⟩ := namesTail_read ('x' :: namesTail n).length
    (List.cons_ne_nil _ []) hstored hrounds r.cursor.peekSpan
  have hflat : (NodeKind.matrix [ids]).isControlFlow = false := rfl
  have hmatrix (span : Span) := hall.withNode hflat span
  have hwhole := Form.matrixRows_eq_ok_iff.mpr ⟨false, _, hskip, 'x', rfl, .inr ⟨by decide, .inr
    ⟨by decide, .inr ⟨by decide, _, r₁, hread, hrows⟩⟩⟩⟩
  obtain ⟨span, hparse⟩ := parse_matrix hwhole hall.rest fun span => (hmatrix span).any_kind? _
  have hkinds := (hmatrix span).kinds
  rw [List.nil_append, List.singleton_append, ← List.replicate_succ] at hkinds hall
  rw [hall.nextId, List.length_replicate] at hparse
  exact ⟨_, ids, hparse, hkinds⟩

/-- If the names take all numbers, the number that is left for the matrix is that of a name. -/
theorem not_reads_columns : ¬∀ columns : List Column, columns ≠ [] → ∃ row : List Tree,
    Reads ('[' :: ([' '].intercalate (columns.map (·.chars)) ++ [']'])) [(.of (.matrix [row]), false)]
      ∧ Reads ('[' :: ([','].intercalate (columns.map (·.chars)) ++ [']']))
        [(.of (.matrix [row]), false)] := by
  intro h
  let x : Column := {
    chars := ['x']
    program := ⟨⟨#[⟨.name "x", ⟨1, 2⟩⟩, ⟨.matrix [[⟨0⟩]], ⟨0, 3⟩⟩]⟩, [⟨⟨1⟩, false⟩]⟩
    tree := .of (.name "x")
    compact := by decide
    parse := by decide +kernel
    reads := rfl }
  obtain ⟨n, hn⟩ : ∃ n, 4294967295 < n := ⟨4294967296, by decide⟩
  obtain ⟨row, ⟨program, hparse, hread⟩, -⟩ := h (List.replicate (n + 1) x) (List.cons_ne_nil _ _)
  obtain ⟨f, ids, hnames, hkinds⟩ := parse_names n
  have htext : [' '].intercalate ((List.replicate (n + 1) x).map (·.chars)) ++ [']']
      = 'x' :: namesTail n := by
    rw [List.map_replicate]
    exact rowTail_replicate n
  rw [htext, hnames] at hparse
  cases hparse
  have hroot : NodeId.ofPlace (n + 1) = ⟨4294967294⟩ := congrArg NodeId.mk (if_neg (by omega))
  have hname : f.kind? ⟨4294967294⟩ = some (.name "x") := by
    have hplace : 4294967294 < n + 1 := by omega
    rw [Forest.kind?_eq, hkinds, List.getElem?_append_left (by rwa [List.length_replicate])]
    exact List.getElem?_replicate_of_lt hplace
  obtain ⟨cs, htree⟩ := Forest.exists_bare_unfold hname
  rw [List.map_singleton, hroot, htree] at hread
  cases congrArg Prod.fst (List.cons.inj hread).1

end Grammar

end MatrixScript
