import MatrixScript.Proofs.Layout.Ownership
import MatrixScript.Proofs.Reading.Progress

/-!
# What a reader has gathered

From one reader to a later one, a number of nodes has been gathered that wait for a parent. This is
the assertion that every step of reading is specified with: given what has been gathered before it,
either the step gathers more, or it fails with a report about a place in the text.

That a node can be found under its number needs room in the forest, since numbers end before the one
that marks an empty slot. What is said of single nodes does not depend on it. Every node and every
number that waits is paid for by the text: each character that is passed allows for two.
-/

namespace MatrixScript

open Reading

/-- A reader somewhere in the text with nodes of the text. No operator is understood without being
written but multiplication. -/
structure Reader.In (text : List Char) (r : Reader) : Prop where
  cursor : r.cursor.In text
  nodes : ∀ node ∈ r.forest.nodes, r.forest.Proper text node
  offers : ∀ p ∈ r.premise, p.1 = ['*']

/-- The nodes that have been added are in order, and the gathered ones follow one another. -/
structure Reader.Arranged (r r₁ : Reader) (ids : List NodeId) : Prop where
  owns : r₁.forest.Owns r.forest.size ids
  lined : Lined r.cursor.offset r₁.cursor.offset (ids.map r₁.forest.spanOf)
  inOrder : ∀ i node, r.forest.size ≤ i → r₁.forest.nodes[i]? = some node →
    r₁.forest.InOrder i node

/-- From one reader to a later one, these nodes have been gathered. -/
structure Gathered (text : List Char) (r r₁ : Reader) (ids : List NodeId) : Prop where
  reaches : r.cursor.Reaches r₁.cursor
  grown : r.forest.Extends r₁.forest
  paid : r₁.forest.size + ids.length + 2 * r₁.cursor.rest.length
    ≤ r.forest.size + 2 * r.cursor.rest.length
  inText : r₁.In text
  arranged : r₁.forest.size ≤ 4294967295 → r.Arranged r₁ ids

theorem Reader.In.movedTo {text : List Char} {r : Reader} {c : Cursor} (h : r.In text)
    (hc : r.cursor.Reaches c) : (r.movedTo c).In text :=
  ⟨h.cursor.reaches hc, h.nodes, h.offers⟩

namespace Gathered

variable {text : List Char} {r r₁ r₂ : Reader} {ids ids' : List NodeId}

theorem refl (h : r.In text) : Gathered text r r [] where
  reaches := .refl _
  grown := .refl _
  paid := Nat.le_refl _
  inText := h
  arranged _ := by
    refine ⟨r.forest.owns_nil, Nat.le_refl _, fun i node hi hnode => ?_⟩
    exact absurd (Forest.lt_size hnode) (Nat.not_lt.mpr hi)

theorem trans (h : Gathered text r r₁ ids) (h' : Gathered text r₁ r₂ ids') :
    Gathered text r r₂ (ids ++ ids') where
  reaches := h.reaches.trans h'.reaches
  grown := h.grown.trans h'.grown
  paid := by
    have hfirst := h.paid
    have hsecond := h'.paid
    rw [List.length_append]
    omega
  inText := h'.inText
  arranged hroom := by
    have hfirst := h.arranged (Nat.le_trans h'.grown.1 hroom)
    have hsecond := h'.arranged hroom
    refine ⟨hfirst.owns.append hsecond.owns h'.grown h.grown.1, ?_, fun i node hi hnode => ?_⟩
    · have hspans : ids.map r₂.forest.spanOf = ids.map r₁.forest.spanOf := by
        apply List.map_congr_left
        intro id hid
        exact h'.grown.spanOf (hfirst.owns.range id (List.mem_append_right _ hid)).2
      rw [List.map_append, hspans]
      exact hfirst.lined.append hsecond.lined
    · by_cases hlt : i < r₁.forest.size
      · rw [h'.grown.2 i hlt] at hnode
        exact (hfirst.inOrder i node hi hnode).extends hlt h'.grown
      · exact hsecond.inOrder i node (Nat.le_of_not_lt hlt) hnode

/-- Nothing but the cursor and the forest tells what has been gathered. -/
theorem congr (h : Gathered text r r₁ ids) (hcursor : r₂.cursor = r₁.cursor)
    (hforest : r₂.forest = r₁.forest) (hoffers : ∀ p ∈ r₂.premise, p.1 = ['*']) :
    Gathered text r r₂ ids where
  reaches := hcursor ▸ h.reaches
  grown := hforest ▸ h.grown
  paid := by
    rw [hcursor, hforest]
    exact h.paid
  inText := ⟨hcursor ▸ h.inText.cursor, hforest ▸ h.inText.nodes, hoffers⟩
  arranged hroom := by
    have harranged := h.arranged (hforest ▸ hroom)
    refine ⟨?_, ?_, ?_⟩ <;> rw [hforest]
    · exact harranged.owns
    · rw [hcursor]
      exact harranged.lined
    · exact harranged.inOrder

theorem movedTo (h : Gathered text r r₁ ids) {c : Cursor} (hc : r₁.cursor.Reaches c) :
    Gathered text r (r₁.movedTo c) ids where
  reaches := h.reaches.trans hc
  grown := h.grown
  paid := by
    have hpaid := h.paid
    have hlength := hc.length_le
    rw [Reader.movedTo_forest, Reader.movedTo_cursor]
    omega
  inText := h.inText.movedTo hc
  arranged hroom := by
    have harranged := h.arranged hroom
    exact ⟨harranged.owns, harranged.lined.raise hc.offset_le, harranged.inOrder⟩

theorem sublist (h : Gathered text r r₁ ids) (hsub : ids'.Sublist ids) :
    Gathered text r r₁ ids' where
  reaches := h.reaches
  grown := h.grown
  paid := by
    have hpaid := h.paid
    have hlength := hsub.length_le
    omega
  inText := h.inText
  arranged hroom := by
    have harranged := h.arranged hroom
    exact ⟨harranged.owns.sublist hsub, harranged.lined.sublist (hsub.map _), harranged.inOrder⟩

end Gathered

/-! ### New nodes -/

/-- Whether a node can take up what has been gathered: nothing else stands in its slots. -/
structure NodeKind.Takes (k : NodeKind NodeId) (ids : List NodeId) : Prop where
  slots : ∀ slot ∈ k.slots, slot.1 ∈ ids ∨ slot.1 = NodeId.absent ∧ slot.2 = true
  links : k.links.Sublist ids

theorem NodeKind.takes_of_sublist {k : NodeKind NodeId} {ids : List NodeId}
    (h : k.children.Sublist ids) : k.Takes ids :=
  ⟨fun _ hslot => .inl (h.subset (List.mem_map_of_mem hslot)), List.filter_sublist.trans h⟩

theorem NodeKind.takes_children (k : NodeKind NodeId) : k.Takes k.children :=
  takes_of_sublist (.refl _)

section NewNodes

variable {text : List Char} {r r₁ r₂ : Reader} {ids : List NodeId} {kind : NodeKind NodeId}
  {span : Span} {c : Cursor} {left : NodeId}

theorem Reader.In.spanOf (h : r.In text) (id : NodeId) : (r.forest.spanOf id).Within text := by
  unfold Forest.spanOf
  cases hnode : r.forest.get? id with
  | none => exact Span.within_none text
  | some node => exact (h.nodes node (Array.mem_of_getElem? hnode)).within

theorem Reader.In.withNode (h : r.In text) (hnode : r.forest.Proper text ⟨kind, span⟩) :
    (r.withNode kind span).In text := by
  have hextends := r.forest.extends_push ⟨kind, span⟩
  refine ⟨h.cursor, fun node hmem => hextends.proper ?_, h.offers⟩
  rcases Array.mem_push.mp hmem with hmem | rfl
  · exact h.nodes node hmem
  · exact hnode

theorem Reader.Arranged.withNode (h : r.Arranged r₁ ids) (hgrown : r.forest.size ≤ r₁.forest.size)
    (hroom : r₁.forest.size < 4294967295) (htakes : kind.Takes ids)
    (hlow : r.cursor.offset ≤ span.start.toNat)
    (hnonempty : span.start.toNat < span.stop.toNat) (hhigh : span.stop.toNat ≤ r₁.cursor.offset)
    (hlined : Lined span.start.toNat span.stop.toNat (ids.map r₁.forest.spanOf)) :
    r.Arranged (r₁.withNode kind span) [r₁.forest.nextId] := by
  have hnew := Forest.get?_push_nextId hroom ⟨kind, span⟩
  have hextends := r₁.forest.extends_push ⟨kind, span⟩
  have hslots : ∀ slot ∈ kind.slots, Forest.slotFits r₁.forest.size slot = true := by
    intro slot hslot
    unfold Forest.slotFits
    rcases htakes.slots slot hslot with hid | ⟨habsent, hoptional⟩
    · have hlt := (h.owns.range slot.1 (List.mem_append_right _ hid)).2
      have hpresent : slot.1.isPresent = true := by
        rw [NodeId.isPresent, bne_iff_ne]
        intro heq
        have hindex : slot.1.index.toNat = 4294967295 := by rw [heq]; rfl
        omega
      rw [if_pos hpresent, decide_eq_true hlt]
    · rw [habsent]
      exact hoptional
  have hinOrder : r₁.forest.InOrder r₁.forest.size ⟨kind, span⟩ :=
    ⟨hslots, hlined.sublist (htakes.links.map _)⟩
  refine ⟨h.owns.push hgrown hroom htakes.links, ?_, fun i node hi hnode => ?_⟩
  · have hspan : (r₁.withNode kind span).forest.spanOf r₁.forest.nextId = span := by
      rw [Forest.spanOf, Reader.withNode, hnew]
      rfl
    rw [List.map_singleton, hspan]
    exact ⟨hlow, hnonempty, hhigh⟩
  · rw [Reader.withNode, Forest.get?_push] at hnode
    split at hnode
    · rename_i hsize
      cases hnode
      subst hsize
      refine ⟨hslots, ?_⟩
      have hspans : kind.links.map (r₁.withNode kind span).forest.spanOf
          = kind.links.map r₁.forest.spanOf := by
        apply List.map_congr_left
        intro id hid
        exact hextends.spanOf (Forest.mem_links_lt hslots hid)
      rw [hspans]
      exact hinOrder.lined
    · exact (h.inOrder i node hi hnode).extends (Forest.lt_size hnode) hextends

theorem Cursor.In.offset_lt (hshort : byteCount text < 4294967296) (h : c.In text) :
    c.offset < 4294967296 := Nat.lt_of_le_of_lt h.boundary.le hshort

/-- What has been gathered behind the first character of a form goes under the node of the form. -/
theorem Gathered.form (hshort : byteCount text < 4294967296) (hr : r.In text)
    (hc : r.cursor.Reaches c) (hlt : c.rest.length < r.cursor.rest.length)
    (h : Gathered text (r.movedTo c) r₁ ids) (htakes : kind.Takes ids)
    (hassign : r₁.forest.Assignable kind) :
    Gathered text r (r₁.withNode kind (r₁.cursor.spanFrom r.cursor.offset))
      [r₁.forest.nextId] := by
  have hreaches := hc.trans h.reaches
  have hstart : (r₁.cursor.spanFrom r.cursor.offset).start.toNat = r.cursor.offset :=
    Span.ofRange_start (hr.cursor.offset_lt hshort)
  have hstop : (r₁.cursor.spanFrom r.cursor.offset).stop.toNat = r₁.cursor.offset :=
    Span.ofRange_stop (h.inText.cursor.offset_lt hshort)
  have hfirst : r.cursor.offset < c.offset := hc.offset_lt hlt
  have hlater : c.offset ≤ r₁.cursor.offset := h.reaches.offset_le
  have hproper : r₁.forest.Proper text ⟨kind, r₁.cursor.spanFrom r.cursor.offset⟩ := by
    refine ⟨h.inText.cursor.spanFrom hshort hr.cursor hreaches, ?_, hassign⟩
    rw [hstart, hstop]
    omega
  refine ⟨hreaches, h.grown.trans (Forest.extends_push _ _), ?_, h.inText.withNode hproper,
    fun hroom => ?_⟩
  · have hpaid := h.paid
    rw [Reader.movedTo_forest, Reader.movedTo_cursor] at hpaid
    rw [Reader.size_withNode, Reader.withNode_cursor, List.length_singleton]
    omega
  · rw [Reader.size_withNode] at hroom
    have harranged := h.arranged (Nat.le_of_succ_le hroom)
    have hlined : Lined r.cursor.offset r₁.cursor.offset (ids.map r₁.forest.spanOf) :=
      harranged.lined.lower (Nat.le_of_lt hfirst)
    refine Reader.Arranged.withNode ⟨harranged.owns, hlined, harranged.inOrder⟩ h.grown.1 hroom
      htakes ?_ hproper.nonempty ?_ ?_
    · exact Nat.le_of_eq hstart.symm
    · exact Nat.le_of_eq hstop
    · rw [hstart, hstop]
      exact hlined

/-- An operator takes up the operand on its left and what has been gathered behind its symbol. -/
theorem Gathered.operator (hshort : byteCount text < 4294967296) (h : Gathered text r r₁ [left])
    (h' : Gathered text r₁ r₂ ids)
    (hpaid : r₂.forest.size + 1 + 2 * r₂.cursor.rest.length
      ≤ r₁.forest.size + 2 * c.rest.length)
    (hc : r₁.cursor.Reaches c) (hc' : c.Reaches r₂.cursor) (htakes : kind.Takes (left :: ids))
    (hassign : r₂.forest.Assignable kind) :
    Gathered text r
      (r₂.withNode kind ((r₁.forest.spanOf left).merge (r₂.cursor.spanFrom c.offset)))
      [r₂.forest.nextId] := by
  have hall : Gathered text r r₂ (left :: ids) := h.trans h'
  have hcursor := h.inText.cursor.reaches hc
  have hsymbol := h'.inText.cursor.spanFrom hshort hcursor hc'
  have hsymbolStart : (r₂.cursor.spanFrom c.offset).start.toNat = c.offset :=
    Span.ofRange_start (hcursor.offset_lt hshort)
  have hsymbolStop : (r₂.cursor.spanFrom c.offset).stop.toNat = r₂.cursor.offset :=
    Span.ofRange_stop (h'.inText.cursor.offset_lt hshort)
  have hsize := h'.grown.1
  have hpast : c.offset < r₂.cursor.offset := hc'.offset_lt (by omega)
  have hproper : r₂.forest.Proper text
      ⟨kind, (r₁.forest.spanOf left).merge (r₂.cursor.spanFrom c.offset)⟩ := by
    refine ⟨(h.inText.spanOf left).merge hsymbol, ?_, hassign⟩
    rw [Span.merge_start, Span.merge_stop, hsymbolStart, hsymbolStop]
    omega
  refine ⟨hall.reaches, hall.grown.trans (Forest.extends_push _ _), ?_,
    hall.inText.withNode hproper, fun hroom => ?_⟩
  · have hpaid₁ := h.paid
    have hlength := hc.length_le
    rw [List.length_singleton] at hpaid₁
    rw [Reader.size_withNode, Reader.withNode_cursor, List.length_singleton]
    omega
  · rw [Reader.size_withNode] at hroom
    have harranged := hall.arranged (Nat.le_of_succ_le hroom)
    have hleft := h.arranged (by omega)
    obtain ⟨hlow, -, hbefore⟩ := hleft.lined
    have hbefore : (r₁.forest.spanOf left).stop.toNat ≤ r₁.cursor.offset := hbefore
    have hspans : r₂.forest.spanOf left = r₁.forest.spanOf left :=
      h'.grown.spanOf (hleft.owns.range left (by simp)).2
    have hbehind := hc.offset_le
    have hleftLe := (h.inText.spanOf left).le
    have hstart : ((r₁.forest.spanOf left).merge (r₂.cursor.spanFrom c.offset)).start.toNat
        = (r₁.forest.spanOf left).start.toNat := by
      rw [Span.merge_start, hsymbolStart]
      omega
    have hstop : ((r₁.forest.spanOf left).merge (r₂.cursor.spanFrom c.offset)).stop.toNat
        = r₂.cursor.offset := by
      rw [Span.merge_stop, hsymbolStop]
      omega
    refine harranged.withNode hall.grown.1 hroom htakes ?_ hproper.nonempty ?_ ?_
    · rw [hstart]
      exact hlow
    · exact Nat.le_of_eq hstop
    · have hlined := harranged.lined
      rw [List.map_cons, hspans] at hlined ⊢
      rw [hstart, hstop]
      exact ⟨Nat.le_refl _, hlined.2⟩

end NewNodes

end MatrixScript
