import MatrixScript.Proofs.Extraction.Layout

/-!
# What is extracted

Copying a node appends the row of the tree below it to what has been copied before. So a copy
depends on the tree alone, and not on how the nodes of the original stand or share their children.
The copy of a copy is the same forest.
-/

namespace MatrixScript

namespace Forest

/-- The forest with more nodes behind its own. -/
def pushAll (c : Forest) (nodes : List Node) : Forest := ⟨c.nodes ++ nodes.toArray⟩

variable {f c : Forest} {id : NodeId} {t : Tree} {nodes others : List Node}

theorem pushAll_nil : c.pushAll [] = c := congrArg Forest.mk (Array.append_empty)

theorem size_pushAll : (c.pushAll nodes).size = c.size + nodes.length :=
  Array.size_append.trans (by rw [List.size_toArray]; rfl)

theorem pushAll_pushAll : (c.pushAll nodes).pushAll others = c.pushAll (nodes ++ others) :=
  congrArg Forest.mk (by simp [pushAll])

theorem push_pushAll (node : Node) :
    ((c.pushAll nodes).push node).2 = c.pushAll (nodes ++ [node]) :=
  congrArg Forest.mk (by simp [pushAll])

theorem holds_pushAll : (empty.pushAll nodes).Holds 0 nodes := by
  intro k node hnode
  simpa [pushAll, empty] using hnode

mutual

/-- The copy of a node is the row of the tree below it, behind what there is. The induction is on
the tree, and on the list of trees for several nodes. -/
theorem copyInto_eq (hf : f.WellLinked) : ∀ {t : Tree} {id : NodeId} {fuel : Nat} {c : Forest},
    f.TreeAt id t → (id.isPresent = true → id.index.toNat < fuel) →
    (f.copyInto fuel id).run c = .ok (t.rootId c.size, c.pushAll (t.row c.size))
  | .absent, _, fuel, c, rfl, _ => by
      unfold copyInto
      rw [Tree.row, pushAll_nil]
      rfl
  | .node label span ts, id, 0, c, ⟨hpresent, _⟩, hfuel =>
      absurd (hfuel hpresent) (Nat.not_lt_zero _)
  | .node label span ts, id, fuel + 1, c, ⟨hpresent, node, hnode, hlabel, hspan, hts⟩, hfuel =>
      by
      have hbelow : ∀ child ∈ node.kind.children, child.isPresent = true →
          child.index.toNat < fuel := fun child hchild hthere =>
        Nat.lt_of_lt_of_le (hf.child_lt hnode hchild hthere) (Nat.le_of_lt_succ (hfuel hpresent))
      have hchildren : (node.kind.children.mapM (f.copyInto fuel)).run c
          = .ok (Tree.rootIds c.size ts, c.pushAll (Tree.rowAll c.size ts)) :=
        copyAll_eq hf hts hbelow
      have hsize : (c.pushAll (Tree.rowAll c.size ts)).size = c.size + Tree.sizeAll ts := by
        rw [size_pushAll, Tree.length_rowAll]
      have hkind : (node.kind.mapM (f.copyInto fuel)).run c
          = .ok (label.refill (Tree.rootIds c.size ts), c.pushAll (Tree.rowAll c.size ts)) := by
        rw [NodeKind.mapM_eq_refill, StateT.run_map, hchildren, ← hlabel, NodeKind.refill_label]
        rfl
      unfold copyInto
      rw [if_pos hpresent, hnode]
      dsimp only
      rw [StateT.run_bind, hkind, Tree.rootId, Tree.row, ← push_pushAll, ← hspan, ← hsize]
      rfl

theorem copyAll_eq (hf : f.WellLinked) : ∀ {ts : List Tree} {ids : List NodeId} {fuel : Nat}
    {c : Forest}, f.TreesAt ids ts →
    (∀ id ∈ ids, id.isPresent = true → id.index.toNat < fuel) →
    (ids.mapM (f.copyInto fuel)).run c
      = .ok (Tree.rootIds c.size ts, c.pushAll (Tree.rowAll c.size ts))
  | [], _, _, c, rfl, _ => by
      rw [Tree.rowAll, pushAll_nil]
      rfl
  | t :: ts, _, fuel, c, ⟨id, rest, rfl, ht, hts⟩, hfuel => by
      obtain ⟨hid, hrest⟩ := List.forall_mem_cons.mp hfuel
      have hfirst : (f.copyInto fuel id).run c = .ok (t.rootId c.size, c.pushAll (t.row c.size)) :=
        copyInto_eq hf ht hid
      have hsize : (c.pushAll (t.row c.size)).size = c.size + t.size := by
        rw [size_pushAll, Tree.length_row]
      have hothers := copyAll_eq (c := c.pushAll (t.row c.size)) hf hts hrest
      rw [hsize, pushAll_pushAll] at hothers
      rw [List.mapM_cons, StateT.run_bind, hfirst]
      change ((rest.mapM (f.copyInto fuel) >>= fun ids => pure (t.rootId c.size :: ids)).run
        (c.pushAll (t.row c.size))) = _
      rw [StateT.run_bind, hothers]
      rfl

end

/-! ### Reading a tree back -/

mutual

theorem TreeAt.unfoldWith_eq (hf : f.WellLinked) (hsize : f.size ≤ 4294967295) :
    ∀ {t : Tree} {id : NodeId} {fuel : Nat}, f.TreeAt id t →
    (id.isPresent = true → id.index.toNat < fuel) → f.unfoldWith fuel id = t
  | .absent, _, fuel, rfl, _ => unfoldWith_of_get?_eq_none (get?_absent hsize) fuel
  | .node label span ts, id, 0, ⟨hpresent, _⟩, hfuel =>
      absurd (hfuel hpresent) (Nat.not_lt_zero _)
  | .node label span ts, id, fuel + 1, ⟨hpresent, node, hnode, hlabel, hspan, hts⟩, hfuel => by
      have hbelow : ∀ child ∈ node.kind.children, child.isPresent = true →
          child.index.toNat < fuel := fun child hchild hthere =>
        Nat.lt_of_lt_of_le (hf.child_lt hnode hchild hthere) (Nat.le_of_lt_succ (hfuel hpresent))
      rw [unfoldWith, hnode]
      dsimp only
      rw [hlabel, hspan, TreesAt.unfoldWith_eq hf hsize hts hbelow]

theorem TreesAt.unfoldWith_eq (hf : f.WellLinked) (hsize : f.size ≤ 4294967295) :
    ∀ {ts : List Tree} {ids : List NodeId} {fuel : Nat}, f.TreesAt ids ts →
    (∀ id ∈ ids, id.isPresent = true → id.index.toNat < fuel) →
    ids.map (f.unfoldWith fuel) = ts
  | [], _, _, rfl, _ => rfl
  | t :: ts, _, fuel, ⟨id, rest, rfl, ht, hts⟩, hfuel => by
      obtain ⟨hid, hrest⟩ := List.forall_mem_cons.mp hfuel
      rw [List.map_cons, TreeAt.unfoldWith_eq hf hsize ht hid,
        TreesAt.unfoldWith_eq hf hsize hts hrest]

end

/-! ### Extraction -/

theorem extract_eq (hf : f.WellLinked) (ht : f.TreeAt id t) :
    f.extract id = .ok (t.rootId 0, empty.pushAll (t.row 0)) :=
  copyInto_eq hf ht fun _ => Nat.lt_succ_self _

/-- What is extracted below a node is the tree there, in a forest without broken links of which the
root is the last node. A node stands in one place of the tree, so each place has a node of its own,
also where the original shares one. Extracting the copy gives the copy. -/
theorem extract_of_links {root : NodeId} (hf : f.brokenLink? = none)
    (hroot : f.contains root = true) (hpresent : root.isPresent = true) :
    ∃ t, f.TreeAt root t ∧ (∀ t', f.TreeAt root t' → t' = t)
      ∧ (f.size ≤ 4294967295 → f.unfold root = t)
      ∧ (t.size < 4294967295 → ∃ id out, f.extract root = .ok (id, out)
        ∧ out.TreeAt id t ∧ out.unfold id = t ∧ out.brokenLink? = none
        ∧ id.index.toNat + 1 = out.size ∧ out.size = t.size
        ∧ (∀ n < out.size, ∃! path, out.Leads id path ⟨UInt32.ofNat n⟩)
        ∧ out.extract id = .ok (id, out)) := by
  have hlinked := wellLinked_of_links hf
  obtain ⟨t, ht⟩ := exists_treeAt hlinked fun _ => hroot
  refine ⟨t, ht, fun t' => ht.unique, fun hsize => ?_, fun hsmall => ?_⟩
  · exact ht.unfoldWith_eq hlinked hsize fun _ => Nat.lt_succ_self _
  have hextract := extract_eq hlinked ht
  have hsize : (empty.pushAll (t.row 0)).size = t.size := by
    rw [size_pushAll, Tree.length_row]
    exact Nat.zero_add _
  have hstands : (empty.pushAll (t.row 0)).Stands 0 t :=
    stands_of_holds ht holds_pushAll (by omega)
  have hlinks := (extract_yields hlinked hpresent _ hextract).1
  have hcopy := hstands.treeAt
  refine ⟨_, _, hextract, hcopy, ?_, hlinks.links (by rw [hsize]; omega), ?_, hsize, fun n hn => ?_,
    extract_eq hlinks hcopy⟩
  · exact hcopy.unfoldWith_eq hlinks (hsize.trans_le hsmall.le) fun _ => Nat.lt_succ_self _
  · cases t with
    | absent => exact absurd hpresent (by rw [show root = NodeId.absent from ht]; decide)
    | node label span ts =>
        rw [hsize, hstands.root.1, Tree.size]
        omega
  · exact hstands.existsUnique (by omega) (Nat.zero_le n) (by omega)

/-- A node that is used three times is copied three times, the branch that is missing still is, and
the node behind the root is left out. -/
theorem extract_of_links_shared :
    let f : Forest := ⟨#[⟨.name "x", ⟨4, 5⟩⟩, ⟨.binary .add ⟨0⟩ ⟨0⟩, ⟨6, 11⟩⟩,
      ⟨.branch ⟨0⟩ ⟨1⟩ NodeId.absent, ⟨0, 12⟩⟩, ⟨.last, ⟨14, 17⟩⟩]⟩
    ∃ id out, f.extract ⟨2⟩ = .ok (id, out) ∧ out.TreeAt id (f.unfold ⟨2⟩) ∧ out.size = 5
      ∧ (∃! path, out.Leads id path ⟨1⟩) ∧ out.extract id = .ok (id, out) := by
  intro f
  have hf : f.brokenLink? = none := by decide
  obtain ⟨t, -, -, hunfold, hcopied⟩ := extract_of_links hf
    (show f.contains ⟨2⟩ = true by decide) (by decide)
  obtain rfl := hunfold (by decide)
  have hsize : (f.unfold ⟨2⟩).size = 5 := by decide
  obtain ⟨id, out, hextract, htree, -, -, -, hout, hpaths, hagain⟩ :=
    hcopied (by rw [hsize]; decide)
  rw [hsize] at hout
  exact ⟨id, out, hextract, htree, hout, hpaths 1 (by rw [hout]; decide), hagain⟩

end Forest

end MatrixScript
