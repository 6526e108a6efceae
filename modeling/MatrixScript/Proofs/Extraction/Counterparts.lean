import Mathlib.Order.WellFounded
import MatrixScript.Proofs.Alike.Bodies
import MatrixScript.Proofs.Extraction

/-!
# One node for each tree

Below several nodes, of one forest or of two, there may be the same tree up to spans. The first such
node of a forest can stand for all of them. With its links redirected to the first nodes, the forest
mirrors every part of another one whose tree it holds, and its own parts as well.
-/

namespace MatrixScript

/-- A kind is its label and its children. -/
theorem NodeKind.eq_of_label {α : Type} [Inhabited α] {k k' : NodeKind α}
    (hlabel : k'.label = k.label) (hchildren : k'.children = k.children) : k' = k := by
  have hself (k : NodeKind α) : k = k.refill k.children :=
    calc
      k = k.map id := k.map_id.symm
      _ = k.refill (k.children.mapM (m := Id) fun a => pure a) := k.mapM_eq_refill (m := Id) _
      _ = k.refill k.children := by
        rw [List.mapM_pure]
        exact congrArg k.refill (List.map_id' k.children)
  rw [hself k, hself k', ← refill_label k', ← refill_label k, hlabel, hchildren]

namespace Forest

variable {f c : Forest} {id other : NodeId} {t u : Tree}

/-- Whether a tree stands below a node, up to spans. -/
def Spells (f : Forest) (id : NodeId) (t : Tree) : Prop := ∃ t₀, f.TreeAt id t₀ ∧ t₀.bare = t

theorem TreesAt.forall₂ {ids : List NodeId} {ts : List Tree} (h : f.TreesAt ids ts) :
    List.Forall₂ f.TreeAt ids ts := by
  induction ts generalizing ids with
  | nil =>
      obtain rfl : ids = [] := h
      exact .nil
  | cons t ts ih =>
      obtain ⟨id, rest, rfl, ht, hts⟩ := h
      exact .cons ht (ih hts)

namespace Spells

theorem unique (h : f.Spells id t) (h' : f.Spells id u) : u = t := by
  obtain ⟨t₀, ht, rfl⟩ := h
  obtain ⟨u₀, hu, rfl⟩ := h'
  rw [ht.unique hu]

theorem of_absent (h : f.Spells NodeId.absent t) : t = .absent :=
  unique ⟨.absent, rfl, rfl⟩ h

theorem eq_absent (h : f.Spells id .absent) : id = NodeId.absent := by
  obtain ⟨t₀, ht, hbare⟩ := h
  cases t₀ with
  | absent => exact ht
  | node label span ts => cases hbare

theorem isPresent_iff (h : f.Spells id t) : id.isPresent = true ↔ t ≠ .absent := by
  constructor
  · rintro hpresent rfl
    rw [h.eq_absent] at hpresent
    cases hpresent
  · intro hne
    refine bne_iff_ne.mpr fun habsent => hne ?_
    subst habsent
    exact h.of_absent

/-- What stands below a node that is there: its kind, and the trees of its children. -/
theorem node (h : f.Spells id t) (hpresent : id.isPresent = true) :
    ∃ n ts, f.get? id = some n ∧ t = .node n.kind.label Span.none ts
      ∧ List.Forall₂ f.Spells n.kind.children ts := by
  obtain ⟨t₀, ht, rfl⟩ := h
  cases t₀ with
  | absent =>
      obtain rfl : id = NodeId.absent := ht
      cases hpresent
  | node label span ts =>
      obtain ⟨-, n, hn, rfl, -, hts⟩ := ht
      refine ⟨n, ts.map Tree.bare, hn, by rw [Tree.bare, Tree.bareAll_eq_map], ?_⟩
      rw [List.forall₂_map_right_iff]
      exact hts.forall₂.imp fun _ t ht => ⟨t, ht, rfl⟩

theorem children {k : NodeKind Tree} (h : f.Spells id (.of k)) :
    ∃ kind, f.kind? id = some kind ∧ kind.label = k.label
      ∧ List.Forall₂ f.Spells kind.children k.children := by
  obtain ⟨n, ts, hn, htree, hts⟩ := h.node (h.isPresent_iff.mpr nofun)
  obtain ⟨hlabel, -, rfl⟩ := Tree.node.inj htree
  exact ⟨n.kind, by rw [kind?, hn, Option.map_some], hlabel.symm, hts⟩

theorem kind_name {x : String} (h : f.Spells id (.of (.name x))) : f.kind? id = some (.name x) := by
  obtain ⟨kind, hkind, hlabel, -⟩ := h.children
  cases kind with
  | name y =>
      cases hlabel
      exact hkind
  | _ => cases hlabel

end Spells

theorem exists_spells (hf : f.WellLinked) (hid : id.isPresent = true → f.contains id = true) :
    ∃ t, f.Spells id t :=
  (exists_treeAt hf hid).imp' Tree.bare fun t ht => ⟨t, ht, rfl⟩

theorem spells_unfold (hf : f.WellLinked) (hsize : f.size ≤ 4294967295)
    (hid : f.contains id = true) : f.Spells id (f.unfold id).bare := by
  obtain ⟨t, ht⟩ := exists_treeAt hf fun _ => hid
  exact ⟨t, ht, by rw [unfold, ht.unfoldWith_eq hf hsize fun _ => Nat.lt_succ_self _]⟩

/-- The first node with this tree below it. -/
structure First (f : Forest) (t : Tree) (id : NodeId) : Prop where
  spells : f.Spells id t
  le : ∀ other, f.Spells other t → id.index.toNat ≤ other.index.toNat

theorem exists_first (f : Forest) (t : Tree) : ∃ id, ∀ other, f.Spells other t → f.First t id := by
  by_cases hfound : ∃ id, f.Spells id t
  · obtain ⟨id, hid, hleast⟩ := WellFounded.has_min (measure fun id : NodeId => id.index.toNat).wf
      {id | f.Spells id t} hfound
    exact ⟨id, fun _ _ => ⟨hid, fun other hother => Nat.le_of_not_lt (hleast other hother)⟩⟩
  · exact ⟨NodeId.absent, fun other hother => absurd ⟨other, hother⟩ hfound⟩

/-! ### Links to the first nodes -/

/-- The forest with other links. -/
def redirect (f : Forest) (g : NodeId → NodeId) : Forest :=
  ⟨f.nodes.map fun node => { node with kind := node.kind.map g }⟩

theorem get?_redirect (g : NodeId → NodeId) (id : NodeId) :
    (f.redirect g).get? id = (f.get? id).map fun node => { node with kind := node.kind.map g } :=
  Array.getElem?_map

section Redirected

variable {first : Tree → NodeId} {below : NodeId → Tree}
  (hfirst : ∀ t id, f.Spells id t → f.First t (first t))
  (hbelow : ∀ id t, f.Spells id t → below id = t)
include hfirst hbelow

/-- Links still lead backwards, since the first of several nodes is not behind the others. -/
theorem linked_redirect (hf : f.WellLinked) : (f.redirect fun id => first (below id)).Linked := by
  intro i node hi child hchild
  rw [redirect, Array.getElem?_map, Option.map_eq_some_iff] at hi
  obtain ⟨node, hnode, rfl⟩ := hi
  rw [NodeKind.children_map] at hchild
  obtain ⟨id, hid, rfl⟩ := List.mem_map.mp hchild
  have hlink := hf.linked i node hnode id hid
  obtain ⟨t, ht⟩ := exists_spells hf fun hpresent =>
    decide_eq_true ((hlink.resolve_left (bne_iff_ne.mp hpresent)).trans (lt_size hnode))
  have hleast := hfirst t id ht
  rw [hbelow id t ht]
  rcases hlink with rfl | hlt
  · obtain rfl := ht.of_absent
    exact .inl hleast.spells.eq_absent
  · exact .inr ((hleast.le id ht).trans_lt hlt)

/-- What stands below a node of some forest and also in this one is mirrored here. -/
theorem mirrors_redirect (hf : f.WellLinked) (hc : c.WellLinked) {below' : NodeId → Tree}
    (hbelow' : ∀ id t, c.Spells id t → below' id = t) :
    c.Mirrors (f.redirect fun id => first (below id)) (fun id => first (below' id))
      (fun id => id.isPresent = true ∧ ∃ t, c.Spells id t ∧ ∃ other, f.Spells other t)
      (fun _ => True) fun _ _ => True where
  node := by
    rintro id ⟨hpresent, t, ht, other, hother⟩
    have hthere := (hfirst t other hother).spells
    have hpresent' : (first t).isPresent = true :=
      hthere.isPresent_iff.mpr (ht.isPresent_iff.mp hpresent)
    obtain ⟨node, ts, hnode, rfl, hchildren⟩ := ht.node hpresent
    obtain ⟨node', ts', hnode', htree, hchildren'⟩ := hthere.node hpresent'
    obtain ⟨hlabel, -, rfl⟩ := Tree.node.inj htree
    have hmap {f : Forest} {below : NodeId → Tree} {ids : List NodeId}
        (hbelow : ∀ id t, f.Spells id t → below id = t) (h : List.Forall₂ f.Spells ids ts) :
        ids.map (fun id => first (below id)) = ts.map first := by
      refine List.forall₂_eq_eq_eq ▸ List.forall₂_map_left_iff.mpr ?_
      exact List.forall₂_map_right_iff.mpr (h.imp fun id t ht => congrArg first (hbelow id t ht))
    rw [hbelow' id _ ht, get?_redirect, hnode, hnode']
    refine .some ⟨NodeKind.eq_of_label ?_ ?_, trivial⟩
    · rw [NodeKind.label_map, NodeKind.label_map, hlabel]
    · rw [NodeKind.children_map, NodeKind.children_map, hmap hbelow hchildren',
        hmap hbelow' hchildren]
  guided := by
    rintro id node ⟨hpresent, t, ht, other, hother⟩ hnode slot hslot
    have hthere := (hfirst t other hother).spells
    have hpresent' := hthere.isPresent_iff.mpr (ht.isPresent_iff.mp hpresent)
    obtain ⟨_, ts, hnode', rfl, hchildren⟩ := ht.node hpresent
    obtain rfl := Option.some.inj (hnode.symm.trans hnode')
    obtain ⟨node', ts', -, htree, hchildren'⟩ := hthere.node hpresent'
    obtain ⟨-, -, rfl⟩ := Tree.node.inj htree
    obtain ⟨k, hk, hchild⟩ := List.getElem_of_mem (List.mem_map_of_mem (f := Prod.fst) hslot)
    obtain ⟨u, hu, v, hv⟩ : ∃ u, c.Spells slot.1 u ∧ ∃ v, f.Spells v u := by
      have hk' : k < ts.length := hchildren.length_eq ▸ hk
      have hslot' : node.kind.children.get ⟨k, hk⟩ = slot.1 := hchild
      exact ⟨ts.get ⟨k, hk'⟩, hslot' ▸ hchildren.get hk hk', _,
        hchildren'.get (hchildren'.length_eq ▸ hk') hk'⟩
    refine ⟨?_, fun hfilled => ⟨?_, u, hu, v, hv⟩⟩
    · change (first (below' slot.1)).isPresent = _
      rw [hbelow' _ u hu, Bool.eq_iff_iff, (hfirst u v hv).spells.isPresent_iff, hu.isPresent_iff]
    · exact (hc.isPresent_or hnode hslot).elim (fun hpresent => hpresent) hfilled
  known := fun _ _ _ _ _ _ => trivial
  missing := by
    rintro id ⟨hpresent, t, ht, -⟩ hnone
    obtain ⟨node, ts, hnode, -⟩ := ht.node hpresent
    rw [hnode] at hnone
    cases hnone
  enough := .inr ⟨hc.linked, .inl (linked_redirect hfirst hbelow hf)⟩

end Redirected

/-- Two places with the same tree are mirrored by one. -/
theorem Spells.exists_mirrors {f' : Forest} {id' : NodeId} (hf : f.WellLinked) (hf' : f'.WellLinked)
    (h : f.Spells id t) (h' : f'.Spells id' t) (ht : t ≠ .absent) :
    ∃ (c : Forest) (g g' : NodeId → NodeId) (D D' : NodeId → Prop),
      f.Mirrors c g D (fun _ => True) (fun _ _ => True) ∧ D id
      ∧ f'.Mirrors c g' D' (fun _ => True) (fun _ _ => True) ∧ D' id' ∧ g' id' = g id := by
  have hbelow (f : Forest) (id : NodeId) : ∃ t, ∀ u, f.Spells id u → t = u := by
    by_cases hfound : ∃ t, f.Spells id t
    · exact hfound.imp fun t ht u hu => hu.unique ht
    · exact ⟨.absent, fun u hu => absurd ⟨u, hu⟩ hfound⟩
  choose first hfirst using f.exists_first
  choose below hbelow using hbelow
  refine ⟨_, _, _, _, _, mirrors_redirect hfirst (hbelow f) hf hf (hbelow f),
    ⟨h.isPresent_iff.mpr ht, t, h, id, h⟩, mirrors_redirect hfirst (hbelow f) hf hf' (hbelow f'),
    ⟨h'.isPresent_iff.mpr ht, t, h', id, h⟩, ?_⟩
  rw [hbelow f' id' t h', hbelow f id t h]

end Forest

end MatrixScript
