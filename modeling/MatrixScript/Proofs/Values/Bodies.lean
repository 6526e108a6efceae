import MatrixScript.Proofs.Reading.Trees
import MatrixScript.Proofs.Values.Keeping
import MatrixScript.Value.Basic

/-!
# Bodies of functions

A function keeps a copy of its body. A node is stored in the copy after all that it links to, so
every link of the copy points backwards, and a slot of the copy is left empty only where it was
empty in the original. The copy of a body in a forest without broken links has none either.
-/

namespace MatrixScript

namespace Forest

/-- Whether a number can stand in a slot of the node at a place: it leads to an earlier node, or the
slot may stay empty. Behind the last place that has a number of its own, the number of that place
is also the one that stands for no node. -/
def Fills (n : Nat) (slot : NodeId × Bool) : Prop :=
  slot.1.Below n ∧ (slot.1.isPresent = true ∨ slot.2 = true ∨ 4294967295 < n)

/-- The slots are filled as those of a node at this place have to be. -/
def Filled (n : Nat) (slots : List (NodeId × Bool)) : Prop := ∀ slot ∈ slots, Fills n slot

/-- The slots of all nodes are filled as they have to be, as far as numbers go. -/
def WellLinked (f : Forest) : Prop :=
  ∀ (i : Nat) (node : Node), f.nodes[i]? = some node → Filled i node.kind.slots

variable {slots : List (NodeId × Bool)} {m n : Nat}

theorem fills_of_slotFits {slot : NodeId × Bool} (h : slotFits n slot = true) : Fills n slot := by
  unfold slotFits at h
  split at h
  · exact ⟨.inr (of_decide_eq_true h), .inl ‹_›⟩
  · rename_i habsent
    exact ⟨.inl (Decidable.not_not.mp fun hne => habsent (bne_iff_ne.mpr hne)), .inr (.inl h)⟩

theorem Fills.slotFits {slot : NodeId × Bool} (h : Fills n slot) (hn : n ≤ 4294967295) :
    slotFits n slot = true := by
  unfold Forest.slotFits
  split
  · rename_i hpresent
    exact decide_eq_true (h.1.resolve_left (bne_iff_ne.mp hpresent))
  · rename_i habsent
    exact (h.2.resolve_left habsent).resolve_right (Nat.not_lt.mpr hn)

theorem Fills.mono {slot : NodeId × Bool} (h : Fills m slot) (hle : m ≤ n) : Fills n slot :=
  ⟨h.1.mono hle, h.2.imp_right (.imp_right fun hlt => Nat.lt_of_lt_of_le hlt hle)⟩

theorem Filled.mono (h : Filled m slots) (hle : m ≤ n) : Filled n slots :=
  fun slot hslot => (h slot hslot).mono hle

theorem filled_append {others : List (NodeId × Bool)} :
    Filled n (slots ++ others) ↔ Filled n slots ∧ Filled n others :=
  List.forall_mem_append

/-- A part of a copy that starts out when some slots can be filled. It breaks no link and loses no
node, and what it gives has a property that may refer to the number of nodes then. -/
def Copies {α : Type} (done : List (NodeId × Bool)) (x : StateT Forest (Except NodeId) α)
    (P : Nat → α → Prop) : Prop :=
  ∀ f : Forest, f.WellLinked → Filled f.size done →
    Yields (x.run f) fun p => p.2.WellLinked ∧ f.size ≤ p.2.size ∧ P p.2.size p.1

/-- Every child of a node is copied so that it fits its slot. -/
def CopiesSlots (g : NodeId → StateT Forest (Except NodeId) NodeId) (slots : List (NodeId × Bool)) :
    Prop :=
  ∀ slot ∈ slots, Copies [] (g slot.1) fun n id => Fills n (id, slot.2)

section Copies

variable {α β : Type} {done : List (NodeId × Bool)} {P : Nat → α → Prop} {k : NodeKind NodeId}
  {g : NodeId → StateT Forest (Except NodeId) NodeId}

theorem copies_pure {a : α} (h : ∀ n, Filled n done → P n a) : Copies done (pure a) P :=
  fun f hf hdone => yields_ok ⟨hf, Nat.le_refl _, h f.size hdone⟩

theorem Copies.slot {id : NodeId} {optional : Bool} {f : NodeId → StateT Forest (Except NodeId) α}
    (h : Copies [] (g id) fun n id => Fills n (id, optional))
    (hf : ∀ id, Copies (done ++ [(id, optional)]) (f id) P) : Copies done (g id >>= f) P := by
  intro forest hforest hdone
  rw [StateT.run_bind]
  refine (h forest hforest nofun).bind fun p hp => ?_
  obtain ⟨hlinked, hle, hfits⟩ := hp
  have hnow : Filled p.2.size (done ++ [(p.1, optional)]) :=
    filled_append.mpr ⟨hdone.mono hle, List.forall_mem_singleton.mpr hfits⟩
  refine (hf p.1 p.2 hlinked hnow).imp fun q hq => ?_
  exact ⟨hq.1, Nat.le_trans hle hq.2.1, hq.2.2⟩

theorem Copies.list {ids : List NodeId} {f : List NodeId → StateT Forest (Except NodeId) α}
    (h : CopiesSlots g (ids.map (·, false)))
    (hf : ∀ ids, Copies (done ++ ids.map (·, false)) (f ids) P) :
    Copies done (ids.mapM g >>= f) P := by
  induction ids generalizing done f with
  | nil =>
      have hnil := hf []
      rwa [List.map_nil, List.append_nil] at hnil
  | cons id ids ih =>
      obtain ⟨hid, hids⟩ := List.forall_mem_cons.mp h
      rw [List.mapM_cons, bind_assoc]
      refine .slot hid fun id' => ?_
      rw [bind_assoc]
      refine ih hids fun ids' => ?_
      rw [pure_bind, List.append_assoc]
      exact hf (id' :: ids')

theorem Copies.rows {rows : List (List NodeId)}
    {f : List (List NodeId) → StateT Forest (Except NodeId) α}
    (h : CopiesSlots g (rows.flatten.map (·, false)))
    (hf : ∀ rows, Copies (done ++ rows.flatten.map (·, false)) (f rows) P) :
    Copies done (rows.mapM (·.mapM g) >>= f) P := by
  induction rows generalizing done f with
  | nil =>
      have hnil := hf []
      rwa [List.flatten_nil, List.map_nil, List.append_nil] at hnil
  | cons row rows ih =>
      rw [List.flatten_cons, List.map_append] at h
      obtain ⟨hrow, hrows⟩ := List.forall_mem_append.mp h
      rw [List.mapM_cons, bind_assoc]
      refine .list hrow fun row' => ?_
      rw [bind_assoc]
      refine ih hrows fun rows' => ?_
      rw [pure_bind, List.append_assoc, ← List.map_append]
      exact hf (row' :: rows')

theorem Copies.statements {statements : List (NodeId × Bool)}
    {f : List (NodeId × Bool) → StateT Forest (Except NodeId) α}
    (h : CopiesSlots g (statements.map (·.1, false)))
    (hf : ∀ statements, Copies (done ++ statements.map (·.1, false)) (f statements) P) :
    Copies done ((statements.mapM fun t => do return (← g t.1, t.2)) >>= f) P := by
  induction statements generalizing done f with
  | nil =>
      have hnil := hf []
      rwa [List.map_nil, List.append_nil] at hnil
  | cons t statements ih =>
      obtain ⟨ht, hstatements⟩ := List.forall_mem_cons.mp h
      rw [List.mapM_cons, bind_assoc, bind_assoc]
      refine .slot ht fun id => ?_
      rw [pure_bind, bind_assoc]
      refine ih hstatements fun statements' => ?_
      rw [pure_bind, List.append_assoc]
      exact hf ((id, t.2) :: statements')

/-- A kind with two children that both have to be there. -/
theorem copies_pair {make : NodeId → NodeId → NodeKind NodeId} {a b : NodeId}
    (hmake : ∀ a b, (make a b).slots = [(a, false), (b, false)])
    (h : CopiesSlots g (make a b).slots) :
    Copies [] (do
      let a ← g a
      let b ← g b
      return make a b) fun n k => Filled n k.slots := by
  rw [hmake] at h
  refine .slot (h _ List.mem_cons_self) fun a => ?_
  refine .slot (h _ (List.mem_cons_of_mem _ List.mem_cons_self)) fun b => ?_
  refine copies_pure fun n hdone => ?_
  rw [hmake]
  exact hdone

/-- The slots of the copy of a kind, one after another. -/
theorem copies_kind (h : CopiesSlots g k.slots) :
    Copies [] (k.mapM g) fun n k => Filled n k.slots := by
  cases k with
  | real x => exact copies_pure fun _ _ => nofun
  | imaginary x => exact copies_pure fun _ _ => nofun
  | text s => exact copies_pure fun _ _ => nofun
  | name s => exact copies_pure fun _ _ => nofun
  | last => exact copies_pure fun _ _ => nofun
  | everything => exact copies_pure fun _ _ => nofun
  | unary op a =>
      refine .slot (h (a, false) (by simp [NodeKind.slots])) fun a => ?_
      exact copies_pure fun _ hdone => hdone
  | binary op a b => exact copies_pair (fun _ _ => rfl) h
  | range a b => exact copies_pair (fun _ _ => rfl) h
  | assign a op b => exact copies_pair (fun _ _ => rfl) h
  | call callee args =>
      obtain ⟨hcallee, hargs⟩ := List.forall_mem_cons.mp h
      refine .slot hcallee fun callee => .list hargs fun args => ?_
      exact copies_pure fun _ hdone => hdone
  | matrix rows =>
      refine .rows h fun rows => ?_
      exact copies_pure fun _ hdone => hdone
  | tuple items =>
      refine .list h fun items => ?_
      exact copies_pure fun _ hdone => hdone
  | lambda params body =>
      refine .slot (h (body, false) (by simp [NodeKind.slots])) fun body => ?_
      exact copies_pure fun _ hdone => hdone
  | block statements =>
      refine .statements h fun statements => ?_
      exact copies_pure fun _ hdone => hdone
  | branch cond yes no =>
      refine .slot (h (cond, false) (by simp [NodeKind.slots])) fun cond => ?_
      refine .slot (h (yes, false) (by simp [NodeKind.slots])) fun yes => ?_
      refine .slot (h (no, true) (by simp [NodeKind.slots])) fun no => ?_
      exact copies_pure fun _ hdone => hdone
  | whileLoop cond body => exact copies_pair (fun _ _ => rfl) h
  | forLoop init cond step body =>
      refine .slot (h (init, true) (by simp [NodeKind.slots])) fun init => ?_
      refine .slot (h (cond, true) (by simp [NodeKind.slots])) fun cond => ?_
      refine .slot (h (step, true) (by simp [NodeKind.slots])) fun step => ?_
      refine .slot (h (body, false) (by simp [NodeKind.slots])) fun body => ?_
      exact copies_pure fun _ hdone => hdone

end Copies

variable {f : Forest} {id : NodeId} {optional : Bool}

theorem wellLinked_of_links (hf : f.brokenLink? = none) : f.WellLinked :=
  fun i node hnode slot hslot =>
    fills_of_slotFits (brokenLink?_eq_none_iff.mp hf i node hnode slot hslot)

/-- Where all nodes have numbers of their own, no link is broken. -/
theorem WellLinked.links (hf : f.WellLinked) (hsize : f.size ≤ 4294967296) : f.brokenLink? = none :=
  brokenLink?_eq_none_iff.mpr fun i node hnode slot hslot =>
    (hf i node hnode slot hslot).slotFits (by have := lt_size hnode; omega)

theorem WellLinked.linked (hf : f.WellLinked) : f.Linked := by
  intro i node hnode child hchild
  obtain ⟨slot, hslot, rfl⟩ := List.mem_map.mp hchild
  exact (hf i node hnode slot hslot).1

/-- What has to be there is one of the nodes in front of the place, be it because there are so many
of them that the number of no node is the place of one. -/
theorem Fills.contains (h : Fills f.size (id, false)) : f.contains id = true := by
  obtain ⟨habsent | hlt, hroot⟩ := h
  · obtain rfl : id = NodeId.absent := habsent
    exact decide_eq_true ((hroot.resolve_left (by decide)).resolve_left (by decide))
  · exact decide_eq_true hlt

theorem wellLinked_empty : empty.WellLinked := fun _ _ hnode => by cases hnode

theorem WellLinked.push (hf : f.WellLinked) {node : Node} (h : Filled f.size node.kind.slots) :
    (f.push node).2.WellLinked := by
  intro i other hi
  rw [get?_push] at hi
  split at hi
  · rename_i hsize
    obtain rfl := Option.some.inj hi
    rw [hsize]
    exact h
  · exact hf i other hi

/-- The number of the next node can stand in a slot of every node behind it, even when numbers have
run out. -/
theorem fills_nextId (f : Forest) (optional : Bool) : Fills (f.size + 1) (f.nextId, optional) := by
  refine ⟨.inr (Nat.lt_succ_of_le (NodeId.ofPlace_index_le f.size)), ?_⟩
  by_cases hlast : f.size = 4294967295
  · exact .inr (.inr (by omega))
  · exact .inl (NodeId.isPresent_ofPlace hlast)

/-- Every slot of a node that can be found holds a node, or it may stay empty. -/
theorem WellLinked.isPresent_or (hf : f.WellLinked) {node : Node} (hnode : f.get? id = some node)
    {slot : NodeId × Bool} (hslot : slot ∈ node.kind.slots) :
    slot.1.isPresent = true ∨ slot.2 = true :=
  (hf _ node hnode slot hslot).2.imp_right fun h =>
    h.resolve_right (Nat.not_lt.mpr (Nat.le_of_lt_succ id.index.toNat_lt))

/-- A child that has to be there is. -/
theorem WellLinked.isPresent_required (hf : f.WellLinked) {node : Node} (hnode : f.get? id = some node)
    {k : NodeKind NodeId} (hkind : node.kind = k) {child : NodeId} (hslot : (child, false) ∈ k.slots) :
    child.isPresent = true :=
  (hf.isPresent_or hnode (hkind ▸ hslot)).resolve_right Bool.false_ne_true

/-- A child that is there has a smaller number. -/
theorem WellLinked.child_lt (hf : f.WellLinked) {node : Node} (hnode : f.get? id = some node)
    {child : NodeId} (hchild : child ∈ node.kind.children) (hpresent : child.isPresent = true) :
    child.index.toNat < id.index.toNat :=
  (hf.linked _ node hnode child hchild).resolve_left (bne_iff_ne.mp hpresent)

/-- The induction is on the fuel, which goes down by one from a node to its children. -/
theorem copyInto_copies (hf : f.WellLinked) (fuel : Nat)
    (hid : id.isPresent = true ∨ optional = true) :
    Copies [] (f.copyInto fuel id) fun n id => Fills n (id, optional) := by
  have habsent (h : ¬id.isPresent = true) (n : Nat) : Fills n (NodeId.absent, optional) :=
    ⟨.inl rfl, .inr (.inl (hid.resolve_left h))⟩
  induction fuel generalizing id optional with
  | zero =>
      unfold copyInto
      split
      · exact fun _ _ _ => yields_error _
      · rename_i hpresent
        exact copies_pure fun n _ => habsent hpresent n
  | succ fuel ih =>
      unfold copyInto
      split
      · cases hnode : f.get? id with
        | none => exact fun _ _ _ => yields_error _
        | some node =>
            have hkind := copies_kind fun slot hslot =>
              have hslot := hf.isPresent_or hnode hslot
              ih hslot fun h _ => ⟨.inl rfl, .inr (.inl (hslot.resolve_left h))⟩
            intro copy hcopy _
            rw [StateT.run_bind]
            refine (hkind copy hcopy nofun).bind fun p hp => yields_ok ?_
            obtain ⟨hlinked, hle, hfilled⟩ := hp
            rw [size_push]
            exact ⟨hlinked.push hfilled, Nat.le_succ_of_le hle, fills_nextId p.2 optional⟩
      · rename_i hpresent
        exact copies_pure fun n _ => habsent hpresent n

/-- The copy of a body, in which the root is one of the nodes. -/
theorem extract_yields (hf : f.WellLinked) (hid : id.isPresent = true) :
    Yields (f.extract id) fun p => p.2.WellLinked ∧ p.2.contains p.1 = true := by
  have hcopies : Copies [] (f.copyInto (id.index.toNat + 1) id) fun n id => Fills n (id, false) :=
    copyInto_copies hf _ (.inl hid)
  exact (hcopies Forest.empty wellLinked_empty nofun).imp fun p hp => ⟨hp.1, hp.2.2.contains⟩

end Forest

end MatrixScript
