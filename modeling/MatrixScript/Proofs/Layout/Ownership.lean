import MatrixScript.Grammar.Operators
import MatrixScript.Proofs.Layout.Positions
import MatrixScript.Proofs.Reading.Trees

/-!
# Nodes and their parents

A piece of text that has been read leaves new nodes in the forest and the numbers of those that wait
for a parent. No number is among the children of two nodes, or of one node twice, and the children
of a node stand inside its span, one behind the other. Both facts are kept relative to the number of
nodes that were there before the piece, so pieces that follow one another combine, and a new node
takes up what was gathered for it.
-/

namespace MatrixScript

/-! ### Spans one behind the other -/

/-- The spans are not empty and follow one another between two places. -/
def Lined (low high : Nat) : List Span → Prop
  | [] => low ≤ high
  | s :: spans => low ≤ s.start.toNat ∧ s.start.toNat < s.stop.toNat ∧ Lined s.stop.toNat high spans

section Lined

variable {low mid high : Nat} {spans others : List Span}

theorem Lined.le (h : Lined low high spans) : low ≤ high := by
  induction spans generalizing low with
  | nil => exact h
  | cons s spans ih =>
      obtain ⟨hlow, hspan, hrest⟩ := h
      have hhigh := ih hrest
      omega

theorem Lined.append (h : Lined low mid spans) (h' : Lined mid high others) :
    Lined low high (spans ++ others) := by
  induction spans generalizing low with
  | nil =>
      cases others with
      | nil => exact Nat.le_trans h h'
      | cons s others => exact ⟨Nat.le_trans h h'.1, h'.2⟩
  | cons s spans ih => exact ⟨h.1, h.2.1, ih h.2.2⟩

theorem Lined.lower {low' : Nat} (h : Lined low high spans) (hle : low' ≤ low) :
    Lined low' high spans := by
  have hstart : Lined low' low [] := hle
  exact hstart.append h

theorem Lined.raise {high' : Nat} (h : Lined low high spans) (hle : high ≤ high') :
    Lined low high' spans := by
  have hend : Lined high high' [] := hle
  have happend := h.append hend
  rwa [List.append_nil] at happend

theorem Lined.sublist (h : Lined low high spans) (hsub : others.Sublist spans) :
    Lined low high others := by
  induction hsub generalizing low with
  | slnil => exact h
  | cons s _ ih =>
      obtain ⟨hlow, hspan, hrest⟩ := h
      exact (ih hrest).lower (by omega)
  | cons_cons s _ ih => exact ⟨h.1, h.2.1, ih h.2.2⟩

theorem Lined.inside (h : Lined low high spans) {s : Span} (hs : s ∈ spans) :
    low ≤ s.start.toNat ∧ s.stop.toNat ≤ high := by
  induction spans generalizing low with
  | nil => cases hs
  | cons t spans ih =>
      obtain ⟨hlow, hspan, hrest⟩ := h
      rcases List.mem_cons.mp hs with rfl | hs
      · exact ⟨hlow, hrest.le⟩
      · have := ih hrest hs
        omega

theorem Lined.pairwise (h : Lined low high spans) :
    spans.Pairwise fun s t => s.stop.toNat ≤ t.start.toNat := by
  induction spans generalizing low with
  | nil => exact .nil
  | cons s spans ih => exact .cons (fun t ht => (h.2.2.inside ht).1) (ih h.2.2)

end Lined

/-! ### Forests whose nodes are in order -/

/-- The children that are there. -/
def NodeKind.links (k : NodeKind NodeId) : List NodeId := k.children.filter NodeId.isPresent

namespace Forest

variable {f f' : Forest} {base i : Nat} {ids : List NodeId} {node : Node} {id : NodeId}

def spanOf (f : Forest) (id : NodeId) : Span := (f.get? id).elim Span.none (·.span)

/-- The children of the nodes from a number on. -/
def linksFrom (f : Forest) (base : Nat) : List NodeId :=
  (f.nodes.toList.drop base).flatMap (·.kind.links)

/-- The children of the nodes from a number on, and the numbers that wait for a parent, name nodes
from that number on, each of them once. -/
structure Owns (f : Forest) (base : Nat) (ids : List NodeId) : Prop where
  nodup : (f.linksFrom base ++ ids).Nodup
  range : ∀ id ∈ f.linksFrom base ++ ids, base ≤ id.index.toNat ∧ id.index.toNat < f.size

/-- Whether the target of an assignment can be assigned to. -/
def Assignable (f : Forest) : NodeKind NodeId → Prop
  | .assign target op _ => ∃ k, f.kind? target = some k ∧ Operator.isTarget f op.isSome k = true
  | _ => True

/-- A node with a span in the text that is not empty, which assigns to what can be assigned to. -/
structure Proper (text : List Char) (f : Forest) (node : Node) : Prop where
  within : node.span.Within text
  nonempty : node.span.start.toNat < node.span.stop.toNat
  assignable : f.Assignable node.kind

/-- A node whose slots are filled from before it, and whose children stand inside its span. -/
structure InOrder (f : Forest) (i : Nat) (node : Node) : Prop where
  slots : ∀ slot ∈ node.kind.slots, slotFits i slot = true
  lined : Lined node.span.start.toNat node.span.stop.toNat (node.kind.links.map f.spanOf)

theorem Extends.get?_eq_some (h : f.Extends f') (hnode : f.get? id = some node) :
    f'.get? id = some node := (h.2 _ (lt_size hnode)).trans hnode

theorem Extends.kind?_eq_some {k : NodeKind NodeId} (h : f.Extends f')
    (hkind : f.kind? id = some k) : f'.kind? id = some k := by
  obtain ⟨node, hnode, rfl⟩ := Option.map_eq_some_iff.mp hkind
  rw [kind?, h.get?_eq_some hnode, Option.map_some]

theorem exists_of_lt_size (hid : id.index.toNat < f.size) : ∃ node, f.get? id = some node :=
  ⟨_, Array.getElem?_eq_getElem hid⟩

theorem Extends.spanOf (h : f.Extends f') (hid : id.index.toNat < f.size) :
    f'.spanOf id = f.spanOf id := by
  obtain ⟨node, hnode⟩ := exists_of_lt_size hid
  rw [Forest.spanOf, Forest.spanOf, hnode, h.get?_eq_some hnode]

theorem Extends.isName (h : f.Extends f') (hname : Operator.isName f id = true) :
    Operator.isName f' id = true := by
  unfold Operator.isName at hname ⊢
  split at hname
  · rename_i name hkind
    rw [h.kind?_eq_some hkind]
  · cases hname

theorem Extends.assignable (h : f.Extends f') {k : NodeKind NodeId} (hk : f.Assignable k) :
    f'.Assignable k := by
  cases k with
  | assign target op value =>
      obtain ⟨k, hkind, htarget⟩ := hk
      refine ⟨k, h.kind?_eq_some hkind, ?_⟩
      unfold Operator.isTarget at htarget ⊢
      split at htarget
      · rfl
      · exact h.isName htarget
      · rename_i row
        simp only [Bool.and_eq_true, List.all_eq_true] at htarget ⊢
        exact ⟨htarget.1, fun id hid => h.isName (htarget.2 id hid)⟩
      · cases htarget
  | _ => trivial

theorem Extends.proper {text : List Char} (h : f.Extends f') (hnode : f.Proper text node) :
    f'.Proper text node :=
  ⟨hnode.within, hnode.nonempty, h.assignable hnode.assignable⟩

theorem mem_links_lt {k : NodeKind NodeId} (hslots : ∀ slot ∈ k.slots, slotFits i slot = true)
    (hid : id ∈ k.links) : id.index.toNat < i := by
  obtain ⟨hchild, hpresent⟩ := List.mem_filter.mp hid
  obtain ⟨slot, hslot, rfl⟩ := List.mem_map.mp hchild
  have hfits := hslots slot hslot
  rw [slotFits, if_pos hpresent] at hfits
  exact of_decide_eq_true hfits

theorem InOrder.extends (h : f.InOrder i node) (hi : i < f.size) (hextends : f.Extends f') :
    f'.InOrder i node := by
  refine ⟨h.slots, ?_⟩
  have hspans : node.kind.links.map f'.spanOf = node.kind.links.map f.spanOf := by
    apply List.map_congr_left
    intro id hid
    exact hextends.spanOf (Nat.lt_trans (mem_links_lt h.slots hid) hi)
  rw [hspans]
  exact h.lined

/-- The children in a longer forest are those of the shorter one and of the nodes behind it. -/
theorem Extends.linksFrom (h : f.Extends f') (hbase : base ≤ f.size) :
    f'.linksFrom base = f.linksFrom base ++ f'.linksFrom f.size := by
  have hsplit : f'.nodes.toList = f.nodes.toList ++ f'.nodes.toList.drop f.size := by
    have htake : f'.nodes.toList.take f.size = f.nodes.toList := by
      apply List.ext_getElem?
      intro i
      rw [List.getElem?_take]
      split
      · rename_i hi
        rw [Array.getElem?_toList, Array.getElem?_toList, h.2 i hi]
      · rename_i hi
        exact (List.getElem?_eq_none (by rw [Array.length_toList]; exact Nat.le_of_not_lt hi)).symm
    conv => lhs; rw [← List.take_append_drop f.size f'.nodes.toList, htake]
  have hlength : base ≤ f.nodes.toList.length := by
    rw [Array.length_toList]
    exact hbase
  have hdrop : f'.nodes.toList.drop base = f.nodes.toList.drop base ++ f'.nodes.toList.drop f.size := by
    conv => lhs; rw [hsplit, List.drop_append_of_le_length hlength]
  rw [Forest.linksFrom, hdrop, List.flatMap_append]
  rfl

theorem linksFrom_size (f : Forest) : f.linksFrom f.size = [] := by
  have hdrop : f.nodes.toList.drop f.size = [] := List.drop_of_length_le (Nat.le_of_eq rfl)
  rw [linksFrom, hdrop]
  rfl

theorem linksFrom_push (f : Forest) (node : Node) :
    (f.push node).2.linksFrom f.size = node.kind.links := by
  have hlist : (f.push node).2.nodes.toList = f.nodes.toList ++ [node] := Array.toList_push
  have hdrop : (f.push node).2.nodes.toList.drop f.size = [node] := by
    rw [hlist]
    exact List.drop_left' rfl
  rw [linksFrom, hdrop, List.flatMap_singleton]

theorem owns_nil (f : Forest) : f.Owns f.size [] := by
  constructor <;> rw [linksFrom_size]
  · exact List.nodup_nil
  · exact nofun

theorem Owns.sublist {ids' : List NodeId} (h : f.Owns base ids) (hsub : ids'.Sublist ids) :
    f.Owns base ids' := by
  have happend : (f.linksFrom base ++ ids').Sublist (f.linksFrom base ++ ids) :=
    (List.append_sublist_append_left _).mpr hsub
  exact ⟨h.nodup.sublist happend, fun id hid => h.range id (happend.subset hid)⟩

/-- What is gathered behind a forest goes with what was gathered in it. -/
theorem Owns.append {ids' : List NodeId} (h : f.Owns base ids) (h' : f'.Owns f.size ids')
    (hextends : f.Extends f') (hbase : base ≤ f.size) : f'.Owns base (ids ++ ids') := by
  have hperm : (f'.linksFrom base ++ (ids ++ ids')).Perm
      ((f.linksFrom base ++ ids) ++ (f'.linksFrom f.size ++ ids')) := by
    rw [hextends.linksFrom hbase, List.append_assoc, List.append_assoc]
    refine List.Perm.append_left _ ?_
    rw [← List.append_assoc, ← List.append_assoc]
    exact List.perm_append_comm.append_right _
  constructor
  · rw [hperm.nodup_iff, List.nodup_append]
    refine ⟨h.nodup, h'.nodup, fun id hid id' hid' => ?_⟩
    rintro rfl
    exact Nat.not_le_of_lt (h.range id hid).2 (h'.range id hid').1
  · intro id hid
    rcases List.mem_append.mp (hperm.mem_iff.mp hid) with hid | hid
    · have hrange := h.range id hid
      exact ⟨hrange.1, Nat.lt_of_lt_of_le hrange.2 hextends.1⟩
    · have hrange := h'.range id hid
      exact ⟨Nat.le_trans hbase hrange.1, hrange.2⟩

/-- A new node takes up what was gathered for it, and waits for a parent itself. -/
theorem Owns.push (h : f.Owns base ids) (hbase : base ≤ f.size) (hroom : f.size < 4294967295)
    (hlinks : node.kind.links.Sublist ids) : (f.push node).2.Owns base [f.nextId] := by
  have hkept := h.sublist hlinks
  have hall : (f.push node).2.linksFrom base = f.linksFrom base ++ node.kind.links := by
    rw [(f.extends_push node).linksFrom hbase, linksFrom_push]
  have hindex := nextId_index hroom
  constructor
  · rw [hall, List.nodup_append]
    refine ⟨hkept.nodup, List.pairwise_singleton _ _, fun id hid id' hid' => ?_⟩
    have hlt := (hkept.range id hid).2
    rw [List.mem_singleton.mp hid']
    rintro rfl
    omega
  · intro id hid
    rw [size_push]
    rcases List.mem_append.mp hid with hid | hid
    · have hrange := hkept.range id (hall ▸ hid)
      omega
    · rw [List.mem_singleton.mp hid]
      omega

end Forest

end MatrixScript
