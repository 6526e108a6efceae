import MatrixScript.Proofs.Reading.Refills
import MatrixScript.Proofs.Values.Bodies

/-!
# Trees in a row

The nodes of a tree can stand one after another, all those below a node in front of it, and then
every number is known in advance: the last node of a tree is its root. A forest that holds such a
row holds the tree, and every node of the row stands in one place of it.
-/

namespace MatrixScript

namespace Forest

mutual

/-- Whether a tree stands below a node. -/
def TreeAt (f : Forest) : NodeId → Tree → Prop
  | id, .absent => id = NodeId.absent
  | id, .node label span ts => id.isPresent = true ∧ ∃ node, f.get? id = some node
      ∧ node.kind.label = label ∧ node.span = span ∧ f.TreesAt node.kind.children ts

/-- The same for several nodes. -/
def TreesAt (f : Forest) : List NodeId → List Tree → Prop
  | ids, [] => ids = []
  | ids, t :: ts => ∃ id rest, ids = id :: rest ∧ f.TreeAt id t ∧ f.TreesAt rest ts

end

/-- Where a path leads that names the children to go to, one after another. -/
inductive Leads (f : Forest) : NodeId → List Nat → NodeId → Prop where
  | here {id : NodeId} {node : Node} (hpresent : id.isPresent = true)
      (hnode : f.get? id = some node) : Leads f id [] id
  | child {id child last : NodeId} {node : Node} {k : Nat} {path : List Nat}
      (hpresent : id.isPresent = true) (hnode : f.get? id = some node)
      (hchild : node.kind.children[k]? = some child) (h : Leads f child path last) :
      Leads f id (k :: path) last

end Forest

namespace Tree

/-- The number of the root when the nodes of the tree stand in a row from `base` on. -/
def rootId (base : Nat) : Tree → NodeId
  | absent => NodeId.absent
  | node _ _ ts => .ofPlace (base + sizeAll ts)

def rootIds (base : Nat) : List Tree → List NodeId
  | [] => []
  | t :: ts => t.rootId base :: rootIds (base + t.size) ts

mutual

/-- The nodes of the tree in a row, from the number `base` on. -/
def row (base : Nat) : Tree → List Node
  | absent => []
  | node label span ts => rowAll base ts ++ [⟨label.refill (rootIds base ts), span⟩]

def rowAll (base : Nat) : List Tree → List Node
  | [] => []
  | t :: ts => t.row base ++ rowAll (base + t.size) ts

end

mutual

theorem length_row (base : Nat) : ∀ t : Tree, (t.row base).length = t.size
  | absent => rfl
  | node label span ts => by
      rw [row, List.length_append, length_rowAll base ts, List.length_singleton, size, Nat.add_comm]

theorem length_rowAll (base : Nat) : ∀ ts : List Tree, (rowAll base ts).length = sizeAll ts
  | [] => rfl
  | t :: ts => by
      rw [rowAll, List.length_append, length_row base t, length_rowAll _ ts, sizeAll]

end

theorem length_rootIds (base : Nat) (ts : List Tree) : (rootIds base ts).length = ts.length := by
  induction ts generalizing base with
  | nil => rfl
  | cons t ts ih => rw [rootIds, List.length_cons, ih, List.length_cons]

end Tree

namespace Forest

variable {f : Forest} {id : NodeId} {ids : List NodeId} {t : Tree} {ts : List Tree}

theorem TreesAt.length_eq (h : f.TreesAt ids ts) : ids.length = ts.length := by
  induction ts generalizing ids with
  | nil => exact congrArg List.length h
  | cons t ts ih =>
      obtain ⟨id, rest, rfl, -, hrest⟩ := h
      exact congrArg (· + 1) (ih hrest)

/-! ### One tree below a node -/

mutual

theorem TreeAt.unique : ∀ {t t' : Tree} {id : NodeId}, f.TreeAt id t → f.TreeAt id t' → t' = t
  | .absent, .absent, _, _, _ => rfl
  | .absent, .node _ _ _, _, rfl, h' => absurd h'.1 (by decide)
  | .node _ _ _, .absent, _, h, rfl => absurd h.1 (by decide)
  | .node label span ts, .node label' span' ts', id, ⟨_, node, hnode, hlabel, hspan, hts⟩,
      ⟨_, node', hnode', hlabel', hspan', hts'⟩ => by
      obtain rfl := Option.some.inj (hnode.symm.trans hnode')
      rw [← hlabel, ← hlabel', ← hspan, ← hspan', TreesAt.unique hts hts']

theorem TreesAt.unique : ∀ {ts ts' : List Tree} {ids : List NodeId}, f.TreesAt ids ts →
    f.TreesAt ids ts' → ts' = ts
  | [], [], _, _, _ => rfl
  | [], _ :: _, _, rfl, ⟨_, _, h', _⟩ => by cases h'
  | _ :: _, [], _, ⟨_, _, h, _⟩, rfl => by cases h
  | t :: ts, t' :: ts', _, ⟨id, rest, rfl, ht, hts⟩, ⟨id', rest', h', ht', hts'⟩ => by
      obtain ⟨rfl, rfl⟩ := List.cons.inj h'
      rw [ht.unique ht', hts.unique hts']

end

theorem exists_treesAt (h : ∀ id ∈ ids, ∃ t, f.TreeAt id t) : ∃ ts, f.TreesAt ids ts := by
  induction ids with
  | nil => exact ⟨[], rfl⟩
  | cons id ids ih =>
      obtain ⟨hid, hids⟩ := List.forall_mem_cons.mp h
      obtain ⟨t, ht⟩ := hid
      obtain ⟨ts, hts⟩ := ih hids
      exact ⟨t :: ts, id, ids, rfl, ht, hts⟩

/-- By induction on the number of the node. -/
theorem exists_treeAt (hf : f.WellLinked)
    (hid : id.isPresent = true → f.contains id = true) : ∃ t, f.TreeAt id t := by
  induction hn : id.index.toNat using Nat.strongRecOn generalizing id with
  | ind n ih =>
      cases hpresent : id.isPresent with
      | false => exact ⟨.absent, bne_eq_false_iff_eq.mp hpresent⟩
      | true =>
          have hcontains : id.index.toNat < f.size := of_decide_eq_true (hid hpresent)
          have hnode : f.get? id = some f.nodes[id.index.toNat] :=
            Array.getElem?_eq_getElem hcontains
          generalize f.nodes[id.index.toNat] = node at hnode
          have hchildren : ∀ child ∈ node.kind.children, ∃ t, f.TreeAt child t := by
            intro child hchild
            cases hthere : child.isPresent with
            | false => exact ⟨.absent, bne_eq_false_iff_eq.mp hthere⟩
            | true =>
                have hlt := hf.child_lt hnode hchild hthere
                exact ih _ (hn ▸ hlt) (fun _ => decide_eq_true (hlt.trans hcontains)) rfl
          obtain ⟨ts, hts⟩ := exists_treesAt hchildren
          exact ⟨.node node.kind.label node.span ts, hpresent, node, hnode, rfl, rfl, hts⟩

/-! ### A row that stands in a forest -/

/-- Whether a forest has these nodes one after another. -/
def Holds (f : Forest) (base : Nat) (nodes : List Node) : Prop :=
  ∀ k node, nodes[k]? = some node → f.nodes[base + k]? = some node

theorem Holds.append {base : Nat} {nodes others : List Node} (h : f.Holds base (nodes ++ others)) :
    f.Holds base nodes ∧ f.Holds (base + nodes.length) others := by
  constructor
  · intro k node hnode
    exact h k node (List.getElem?_append_left (List.getElem?_eq_some_iff.mp hnode).1 ▸ hnode)
  · intro k node hnode
    rw [Nat.add_assoc]
    refine h _ node ?_
    rw [List.getElem?_append_right (Nat.le_add_right _ _), Nat.add_sub_cancel_left, hnode]

mutual

/-- Whether the nodes of a tree stand in the forest from a number on, with the root as the last. -/
def Stands (f : Forest) (base : Nat) : Tree → Prop
  | .absent => True
  | .node label span ts => f.StandAll base ts ∧ base + Tree.sizeAll ts < 4294967295
      ∧ ts.length = label.children.length
      ∧ f.nodes[base + Tree.sizeAll ts]? = some ⟨label.refill (Tree.rootIds base ts), span⟩

/-- The same for several trees, one behind the other. -/
def StandAll (f : Forest) (base : Nat) : List Tree → Prop
  | [] => True
  | t :: ts => f.Stands base t ∧ f.StandAll (base + t.size) ts

end

mutual

/-- The row of a tree that stands in some forest is that tree again. -/
theorem stands_of_holds {c : Forest} : ∀ {t : Tree} {id : NodeId} {base : Nat}, f.TreeAt id t →
    c.Holds base (t.row base) → base + t.size ≤ 4294967295 → c.Stands base t
  | .absent, _, _, _, _, _ => trivial
  | .node label span ts, id, base, ⟨_, node, _, hlabel, _, hts⟩, hrow, hroom => by
      rw [Tree.size] at hroom
      obtain ⟨hrows, hroot⟩ := hrow.append
      have harity : ts.length = label.children.length := by
        rw [← hts.length_eq, ← hlabel, NodeKind.length_children_label]
      refine ⟨standAll_of_holds hts hrows (by omega), by omega, harity, ?_⟩
      have hlast := hroot 0 _ rfl
      rwa [Tree.length_rowAll, Nat.add_zero] at hlast

theorem standAll_of_holds {c : Forest} : ∀ {ts : List Tree} {ids : List NodeId} {base : Nat},
    f.TreesAt ids ts → c.Holds base (Tree.rowAll base ts) →
    base + Tree.sizeAll ts ≤ 4294967295 → c.StandAll base ts
  | [], _, _, _, _, _ => trivial
  | t :: ts, _, base, ⟨id, rest, rfl, ht, hts⟩, hrow, hroom => by
      rw [Tree.sizeAll] at hroom
      obtain ⟨hfirst, hrest⟩ := hrow.append
      rw [Tree.length_row] at hrest
      exact ⟨stands_of_holds ht hfirst (by omega), standAll_of_holds hts hrest (by omega)⟩

end

/-- The root of a row, and its children. -/
theorem Stands.root {base : Nat} {label : NodeKind Unit} {span : Span}
    (h : f.Stands base (.node label span ts)) :
    ((Tree.node label span ts).rootId base).index.toNat = base + Tree.sizeAll ts
      ∧ ((Tree.node label span ts).rootId base).isPresent = true
      ∧ ∃ node, f.get? ((Tree.node label span ts).rootId base) = some node
        ∧ node.kind.label = label ∧ node.span = span
        ∧ node.kind.children = Tree.rootIds base ts := by
  obtain ⟨-, hroom, harity, hnode⟩ := h
  have hindex : ((Tree.node label span ts).rootId base).index.toNat = base + Tree.sizeAll ts := by
    exact NodeId.ofPlace_index (Nat.le_of_lt hroom)
  have hlength : (Tree.rootIds base ts).length = label.children.length :=
    (Tree.length_rootIds base ts).trans harity
  refine ⟨hindex, bne_iff_ne.mpr fun habsent => ?_, _, by rwa [get?, hindex], ?_, rfl,
    NodeKind.children_refill hlength⟩
  · rw [habsent] at hindex
    exact absurd hroom (Nat.not_lt.mpr hindex.le)
  · exact (NodeKind.label_refill hlength).trans (NodeKind.map_id label)

mutual

/-- A row holds its tree below its last node. -/
theorem Stands.treeAt : ∀ {t : Tree} {base : Nat}, f.Stands base t → f.TreeAt (t.rootId base) t
  | .absent, _, _ => rfl
  | .node _ _ ts, base, h => by
      obtain ⟨-, hpresent, node, hnode, hlabel, hspan, hchildren⟩ := h.root
      exact ⟨hpresent, node, hnode, hlabel, hspan, hchildren ▸ h.1.treesAt⟩

theorem StandAll.treesAt : ∀ {ts : List Tree} {base : Nat}, f.StandAll base ts →
    f.TreesAt (Tree.rootIds base ts) ts
  | [], _, _ => rfl
  | _ :: _, _, ⟨ht, hts⟩ => ⟨_, _, rfl, ht.treeAt, hts.treesAt⟩

end

/-! ### Paths -/

mutual

theorem Stands.within : ∀ {t : Tree} {base : Nat} {path : List Nat} {last : NodeId},
    f.Stands base t → f.Leads (t.rootId base) path last →
    base ≤ last.index.toNat ∧ last.index.toNat < base + t.size
  | .absent, _, _, _, _, hleads => by
      cases hleads with
      | here hpresent => cases hpresent
      | child hpresent => cases hpresent
  | .node label span ts, base, _, _, h, hleads => by
      obtain ⟨hindex, -, node, hnode, -, -, hchildren⟩ := h.root
      rw [Tree.size]
      cases hleads with
      | here => omega
      | child _ hnode' hchild hrest =>
          obtain rfl := Option.some.inj (hnode.symm.trans hnode')
          rw [hchildren] at hchild
          have hwithin := h.1.within hchild hrest
          omega

theorem StandAll.within : ∀ {ts : List Tree} {base k : Nat} {path : List Nat} {child last : NodeId},
    f.StandAll base ts → (Tree.rootIds base ts)[k]? = some child → f.Leads child path last →
    base ≤ last.index.toNat ∧ last.index.toNat < base + Tree.sizeAll ts
  | t :: ts, base, 0, _, _, _, ⟨ht, _⟩, rfl, hleads => by
      have hwithin := ht.within hleads
      rw [Tree.sizeAll]
      omega
  | t :: ts, base, k + 1, _, _, _, ⟨_, hts⟩, hchild, hleads => by
      have hwithin := hts.within hchild hleads
      rw [Tree.sizeAll]
      omega

end

theorem toNat_index {n : Nat} (h : n < 4294967295) :
    (NodeId.mk (UInt32.ofNat n)).index.toNat = n := by
  rw [UInt32.toNat_ofNat']
  exact Nat.mod_eq_of_lt (by omega)

mutual

/-- Every node of a row is in one place of the tree. -/
theorem Stands.existsUnique : ∀ {t : Tree} {base n : Nat}, f.Stands base t → n < 4294967295 →
    base ≤ n → n < base + t.size → ∃! path, f.Leads (t.rootId base) path ⟨UInt32.ofNat n⟩
  | .absent, _, _, _, _, hle, hlt => absurd hlt (Nat.not_lt.mpr hle)
  | .node label span ts, base, n, h, hn, hle, hlt => by
      obtain ⟨hindex, hpresent, node, hnode, -, -, hchildren⟩ := h.root
      have hnumber := toNat_index hn
      rw [Tree.size] at hlt
      by_cases hroot : n = base + Tree.sizeAll ts
      · subst hroot
        have hid : (Tree.node label span ts).rootId base
            = ⟨UInt32.ofNat (base + Tree.sizeAll ts)⟩ := NodeId.ofPlace_eq (Nat.le_of_lt hn)
        rw [← hid]
        refine ⟨[], .here hpresent hnode, fun path hpath => ?_⟩
        generalize (Tree.node label span ts).rootId base = root at *
        cases hpath with
        | here => rfl
        | child _ hnode' hchild hrest =>
            obtain rfl := Option.some.inj (hnode.symm.trans hnode')
            have hwithin := h.1.within (hchildren ▸ hchild) hrest
            omega
      · obtain ⟨⟨k, path⟩, ⟨child, hchild, hrest⟩, hunique⟩ :=
          h.1.existsUnique hn hle (by omega)
        refine ⟨k :: path, .child hpresent hnode (hchildren ▸ hchild) hrest, fun path' hpath' => ?_⟩
        generalize hlast : NodeId.mk (UInt32.ofNat n) = last at hpath'
        cases hpath' with
        | here =>
            rw [hlast] at hnumber
            exact absurd (hnumber.symm.trans hindex) hroot
        | child _ hnode' hchild' hrest' =>
            obtain rfl := Option.some.inj (hnode.symm.trans hnode')
            have hsame := hunique ⟨_, _⟩ ⟨_, hchildren ▸ hchild', hlast ▸ hrest'⟩
            rw [(Prod.mk.inj hsame).1, (Prod.mk.inj hsame).2]

theorem StandAll.existsUnique : ∀ {ts : List Tree} {base n : Nat}, f.StandAll base ts →
    n < 4294967295 → base ≤ n → n < base + Tree.sizeAll ts →
    ∃! p : Nat × List Nat, ∃ child, (Tree.rootIds base ts)[p.1]? = some child
      ∧ f.Leads child p.2 ⟨UInt32.ofNat n⟩
  | [], _, _, _, _, hle, hlt => absurd hlt (Nat.not_lt.mpr hle)
  | t :: ts, base, n, ⟨ht, hts⟩, hn, hle, hlt => by
      have hnumber := toNat_index hn
      rw [Tree.sizeAll] at hlt
      by_cases hfirst : n < base + t.size
      · obtain ⟨path, hpath, hunique⟩ := ht.existsUnique hn hle hfirst
        refine ⟨(0, path), ⟨_, rfl, hpath⟩, ?_⟩
        rintro ⟨k, path'⟩ ⟨child, hchild, hpath'⟩
        cases k with
        | zero =>
            cases hchild
            exact congrArg (0, ·) (hunique path' hpath')
        | succ k =>
            have hwithin := hts.within hchild hpath'
            omega
      · obtain ⟨⟨k, path⟩, ⟨child, hchild, hpath⟩, hunique⟩ :=
          hts.existsUnique hn (Nat.not_lt.mp hfirst) (by omega)
        refine ⟨(k + 1, path), ⟨child, hchild, hpath⟩, ?_⟩
        rintro ⟨k', path'⟩ ⟨child', hchild', hpath'⟩
        cases k' with
        | zero =>
            cases hchild'
            have hwithin := ht.within hpath'
            omega
        | succ k' =>
            have hsame := hunique (k', path') ⟨child', hchild', hpath'⟩
            rw [(Prod.mk.inj hsame).1, (Prod.mk.inj hsame).2]

end

end Forest

end MatrixScript
