import MatrixScript.Syntax.Forest

/-!
# Trees in a growing forest

A forest grows by nodes whose children it already holds. Links lead to earlier nodes, so the tree
below a node is the same ever after, and the tree below a new node is made of those below its
children.
-/

namespace MatrixScript

/-! ### Kinds of nodes with other children -/

namespace NodeKind

variable {α β γ : Type}

section

attribute [local simp] map mapM List.mapM_pure

@[simp] theorem map_call (f : α → β) (g : α) (args : List α) :
    (call g args).map f = call (f g) (args.map f) := by
  simp

@[simp] theorem map_matrix (f : α → β) (rows : List (List α)) :
    (matrix rows).map f = matrix (rows.map (·.map f)) := by
  simp

@[simp] theorem map_tuple (f : α → β) (items : List α) :
    (tuple items).map f = tuple (items.map f) := by
  simp

@[simp] theorem map_block (f : α → β) (statements : List (α × Bool)) :
    (block statements).map f = block (statements.map fun t => (f t.1, t.2)) := by
  simp

end

theorem map_map (f : α → β) (g : β → γ) (k : NodeKind α) :
    (k.map f).map g = k.map (g ∘ f) := by
  cases k with
  | call a args => simp
  | matrix rows => simp
  | tuple items => simp
  | block statements => simp
  | _ => rfl

theorem map_id (k : NodeKind α) : k.map id = k := by
  cases k with
  | call a args => simp
  | matrix rows => simp
  | tuple items => simp
  | block statements => simp
  | _ => rfl

section

attribute [local simp] children slots

theorem children_call (f : α) (args : List α) : (call f args).children = f :: args := by
  simp [Function.comp_def]

theorem children_matrix (rows : List (List α)) : (matrix rows).children = rows.flatten := by
  simp [Function.comp_def]

theorem children_tuple (items : List α) : (tuple items).children = items := by
  simp [Function.comp_def]

theorem children_block (statements : List (α × Bool)) :
    (block statements).children = statements.map (·.1) := by
  simp [Function.comp_def]

theorem children_map (f : α → β) (k : NodeKind α) : (k.map f).children = k.children.map f := by
  cases k with
  | call a args => simp
  | matrix rows => simp [Function.comp_def]
  | tuple items => simp
  | block statements => simp
  | _ => rfl

end

theorem label_map (f : α → β) (k : NodeKind α) : (k.map f).label = k.label :=
  map_map f (fun _ => ()) k

theorem isControlFlow_map (f : α → β) (k : NodeKind α) :
    (k.map f).isControlFlow = k.isControlFlow := by
  cases k with
  | call a args => simp [isControlFlow]
  | matrix rows => simp [isControlFlow]
  | tuple items => simp [isControlFlow]
  | block statements => simp [isControlFlow]
  | _ => rfl

end NodeKind

/-! ### Numbers and links -/

/-- Whether a node number, unless it is the absent one, lies below a bound. -/
def NodeId.Below (n : Nat) (id : NodeId) : Prop := id = absent ∨ id.index.toNat < n

theorem NodeId.Below.mono {id : NodeId} {m n : Nat} (h : id.Below m) (hle : m ≤ n) :
    id.Below n :=
  h.imp_right fun hlt => Nat.lt_of_lt_of_le hlt hle

theorem NodeId.ofPlace_eq {n : Nat} (h : n ≤ 4294967295) : ofPlace n = ⟨UInt32.ofNat n⟩ := by
  rw [ofPlace, if_pos h]

theorem NodeId.ofPlace_index {n : Nat} (h : n ≤ 4294967295) : (ofPlace n).index.toNat = n := by
  rw [ofPlace_eq h, UInt32.toNat_ofNat']
  omega

theorem NodeId.ofPlace_index_le (n : Nat) : (ofPlace n).index.toNat ≤ n := by
  by_cases h : n ≤ 4294967295
  · exact Nat.le_of_eq (ofPlace_index h)
  · rw [ofPlace, if_neg h]
    exact Nat.le_trans (by decide) (Nat.le_of_not_le h)

theorem NodeId.isPresent_ofPlace {n : Nat} (h : n ≠ 4294967295) :
    (ofPlace n).isPresent = true := by
  refine bne_iff_ne.mpr fun habsent => ?_
  by_cases hle : n ≤ 4294967295
  · have hindex := ofPlace_index hle
    rw [habsent] at hindex
    exact h hindex.symm
  · rw [ofPlace, if_neg hle] at habsent
    cases habsent

namespace Forest

/-- Every link leads to an earlier node or to none. -/
def Linked (f : Forest) : Prop :=
  ∀ (i : Nat) (node : Node), f.nodes[i]? = some node → ∀ id ∈ node.kind.children, id.Below i

variable {f : Forest}

theorem get?_push (node : Node) (i : Nat) :
    (f.push node).2.nodes[i]? = if i = f.size then some node else f.nodes[i]? :=
  Array.getElem?_push

theorem size_push (node : Node) : (f.push node).2.size = f.size + 1 := Array.size_push _

theorem lt_size {i : Nat} {node : Node} (h : f.nodes[i]? = some node) : i < f.size :=
  (Array.getElem?_eq_some_iff.mp h).1

/-- No link is broken when every slot of every node is filled as it has to be. -/
theorem brokenLink?_eq_none_iff :
    f.brokenLink? = none ↔ ∀ (i : Nat) (node : Node), f.nodes[i]? = some node →
      ∀ slot ∈ node.kind.slots, slotFits i slot = true := by
  have hmem (i : Nat) (node : Node) :
      (node, i) ∈ f.nodes.toList.zipIdx ↔ f.nodes[i]? = some node := by
    rw [List.mem_zipIdx_iff_getElem?, Array.getElem?_toList]
  simp only [brokenLink?, brokenLinkAt?, List.findSome?_eq_none_iff, Option.map_eq_none_iff,
    List.find?_eq_none, Bool.not_eq_true', Bool.not_eq_false]
  exact ⟨fun h i node hnode => h (node, i) ((hmem i node).mpr hnode),
    fun h p hp => h p.2 p.1 ((hmem p.2 p.1).mp hp)⟩

theorem nextId_index (h : f.size < 4294967295) : f.nextId.index.toNat = f.size :=
  NodeId.ofPlace_index (Nat.le_of_lt h)

theorem get?_push_nextId (h : f.size < 4294967295) (node : Node) :
    (f.push node).2.get? f.nextId = some node := by
  unfold get?
  rw [get?_push, if_pos (nextId_index h)]

theorem kind?_push (h : f.size < 4294967295) (node : Node) :
    (f.push node).2.kind? f.nextId = some node.kind := by
  rw [kind?, get?_push_nextId h, Option.map_some]

theorem Linked.push (hf : f.Linked) {node : Node} (h : ∀ id ∈ node.kind.children, id.Below f.size) :
    (f.push node).2.Linked := by
  intro i other hi id hid
  rw [get?_push] at hi
  split at hi
  · rename_i hsize
    cases hi
    rw [hsize]
    exact h id hid
  · exact hf i other hi id hid

end Forest

/-! ### Trees -/

namespace Tree

mutual

/-- The tree with every span changed. -/
def mapSpans (σ : Span → Span) : Tree → Tree
  | absent => absent
  | node k s cs => node k (σ s) (mapSpansAll σ cs)

def mapSpansAll (σ : Span → Span) : List Tree → List Tree
  | [] => []
  | c :: cs => mapSpans σ c :: mapSpansAll σ cs

end

theorem mapSpansAll_eq_map (σ : Span → Span) (ts : List Tree) :
    mapSpansAll σ ts = ts.map (mapSpans σ) := by
  induction ts with
  | nil => rfl
  | cons t ts ih => rw [mapSpansAll, ih, List.map_cons]

theorem bareAll_eq_map (ts : List Tree) : bareAll ts = ts.map bare := by
  induction ts with
  | nil => rfl
  | cons t ts ih => rw [bareAll, ih, List.map_cons]

mutual

theorem bare_eq_mapSpans : ∀ t : Tree, t.bare = t.mapSpans fun _ => Span.none
  | absent => rfl
  | node k s cs => by rw [bare, mapSpans, bareAll_eq_mapSpansAll cs]

theorem bareAll_eq_mapSpansAll : ∀ ts : List Tree, bareAll ts = mapSpansAll (fun _ => Span.none) ts
  | [] => rfl
  | t :: ts => by rw [bareAll, mapSpansAll, bare_eq_mapSpans t, bareAll_eq_mapSpansAll ts]

theorem mapSpans_id : ∀ t : Tree, t.mapSpans id = t
  | absent => rfl
  | node k s cs => by rw [mapSpans, mapSpansAll_id cs, id]

theorem mapSpansAll_id : ∀ ts : List Tree, mapSpansAll id ts = ts
  | [] => rfl
  | t :: ts => by rw [mapSpansAll, mapSpans_id t, mapSpansAll_id ts]

end

end Tree

theorem Forest.unfoldWith_of_get?_eq_none {f : Forest} {id : NodeId} (h : f.get? id = none)
    (k : Nat) : f.unfoldWith k id = .absent := by
  cases k with
  | zero => rfl
  | succ k => rw [unfoldWith, h]

namespace Forest

variable {f f' : Forest} {id : NodeId}

theorem get?_absent (hsize : f.size ≤ 4294967295) : f.get? NodeId.absent = none :=
  Array.getElem?_eq_none hsize

/-- What a tree is at its top. -/
theorem exists_bare_unfold {k : NodeKind NodeId} (h : f.kind? id = some k) :
    ∃ cs, (f.unfold id).bare = .node k.label .none cs := by
  obtain ⟨node, hnode, rfl⟩ := Option.map_eq_some_iff.mp h
  rw [unfold, unfoldWith, hnode, Tree.bare]
  exact ⟨_, rfl⟩

theorem unfold_absent (hsize : f.size ≤ 4294967295) : f.unfold NodeId.absent = .absent :=
  unfoldWith_of_get?_eq_none (get?_absent hsize) _

/-- Trees agree where the nodes do, up to a renaming of the numbers and a change of the spans. The
induction is on a bound for the number of the node, since links lead to smaller numbers. -/
theorem unfoldWith_congr {g : NodeId → NodeId} {σ ρ : Span → Span} (hlinked : f.Linked)
    (hsize : f.size ≤ 4294967295)
    (hget : ∀ id : NodeId, id.Below f.size → (f'.get? (g id)).map (fun node => (node.kind, ρ node.span))
      = (f.get? id).map fun node => (node.kind.map g, σ node.span)) (n : Nat) :
    ∀ (id : NodeId) (k k' : Nat), n ≤ f.size → id.Below n → n ≤ k → n ≤ k' →
      (f'.unfoldWith k' (g id)).mapSpans ρ = (f.unfoldWith k id).mapSpans σ := by
  induction n using Nat.strongRecOn with
  | ind n ih =>
      intro id k k' hn hid hk hk'
      have hsame := hget id (hid.mono hn)
      cases hnode : f.get? id with
      | none =>
          rw [hnode, Option.map_none, Option.map_eq_none_iff] at hsame
          rw [unfoldWith_of_get?_eq_none hnode, unfoldWith_of_get?_eq_none hsame]
          rfl
      | some node =>
          have hlt : id.index.toNat < f.size := lt_size hnode
          have hbelow : id.index.toNat < n := by
            refine hid.resolve_left ?_
            rintro rfl
            rw [get?_absent hsize] at hnode
            cases hnode
          obtain ⟨k, rfl⟩ : ∃ j, k = j + 1 := ⟨k - 1, by omega⟩
          obtain ⟨k', rfl⟩ : ∃ j, k' = j + 1 := ⟨k' - 1, by omega⟩
          rw [hnode, Option.map_some, Option.map_eq_some_iff] at hsame
          obtain ⟨node', hnode', hsame⟩ := hsame
          obtain ⟨hkind, hspan⟩ := Prod.mk.inj hsame
          have hlinks := hlinked _ node hnode
          rw [unfoldWith, unfoldWith, hnode, hnode']
          simp only [Tree.mapSpans, Tree.mapSpansAll_eq_map, hkind, hspan, NodeKind.label_map,
            NodeKind.children_map, List.map_map]
          congr 1
          apply List.map_congr_left
          intro child hchild
          exact ih id.index.toNat hbelow child k k' (Nat.le_of_lt hlt) (hlinks child hchild)
            (by omega) (by omega)

/-- A node with enough fuel for its number. -/
theorem unfold_mapSpans {g : NodeId → NodeId} {σ ρ : Span → Span} (hlinked : f.Linked)
    (hsize : f.size ≤ 4294967295)
    (hget : ∀ id : NodeId, id.Below f.size → (f'.get? (g id)).map (fun node => (node.kind, ρ node.span))
      = (f.get? id).map fun node => (node.kind.map g, σ node.span))
    (hid : id.Below f.size) {k : Nat} (hk : id.Below k) :
    (f'.unfoldWith k (g id)).mapSpans ρ = (f.unfold id).mapSpans σ := by
  rcases hid with rfl | hlt
  · exact unfoldWith_congr hlinked hsize hget 0 NodeId.absent _ _ (Nat.zero_le _) (.inl rfl)
      (Nat.zero_le _) (Nat.zero_le _)
  · have hlt_k : id.index.toNat < k := by
      refine hk.resolve_left ?_
      rintro rfl
      exact Nat.not_le_of_lt hlt hsize
    exact unfoldWith_congr hlinked hsize hget (id.index.toNat + 1) id _ _ hlt
      (.inr (Nat.lt_succ_self _)) (Nat.le_refl _) hlt_k

theorem unfold_congr {g : NodeId → NodeId} (hlinked : f.Linked) (hsize : f.size ≤ 4294967295)
    (hget : ∀ id : NodeId, id.Below f.size →
      (f'.get? (g id)).map (·.kind) = ((f.get? id).map (·.kind)).map (·.map g))
    (hid : id.Below f.size) {k : Nat} (hk : id.Below k) :
    (f'.unfoldWith k (g id)).bare = (f.unfold id).bare := by
  rw [Tree.bare_eq_mapSpans, Tree.bare_eq_mapSpans]
  refine unfold_mapSpans hlinked hsize (fun id hid => ?_) hid hk
  have hkinds := congrArg (Option.map fun k => (k, Span.none)) (hget id hid)
  simpa only [Option.map_map, Function.comp_def] using hkinds

/-- Whether a forest holds all that another one holds, under the same numbers. -/
def Extends (f f' : Forest) : Prop :=
  f.size ≤ f'.size ∧ ∀ i, i < f.size → f'.nodes[i]? = f.nodes[i]?

theorem Extends.refl (f : Forest) : f.Extends f := ⟨Nat.le_refl _, fun _ _ => rfl⟩

theorem Extends.trans {g : Forest} (h : f.Extends f') (h' : f'.Extends g) : f.Extends g :=
  ⟨Nat.le_trans h.1 h'.1, fun i hi => (h'.2 i (Nat.lt_of_lt_of_le hi h.1)).trans (h.2 i hi)⟩

theorem extends_push (f : Forest) (node : Node) : f.Extends (f.push node).2 := by
  refine ⟨by rw [size_push]; exact Nat.le_succ _, fun i hi => ?_⟩
  rw [get?_push, if_neg (Nat.ne_of_lt hi)]

theorem Extends.get? (h : f.Extends f') (hsize : f'.size ≤ 4294967295) (hid : id.Below f.size) :
    f'.get? id = f.get? id := by
  rcases hid with rfl | hlt
  · rw [get?_absent hsize, get?_absent (Nat.le_trans h.1 hsize)]
  · exact h.2 _ hlt

theorem Extends.unfoldWith (h : f.Extends f') (hlinked : f.Linked) (hsize : f'.size ≤ 4294967295)
    (hid : id.Below f.size) {k : Nat} (hk : id.Below k) :
    (f'.unfoldWith k id).bare = (f.unfold id).bare := by
  have hle := Nat.le_trans h.1 hsize
  refine unfold_congr (g := fun id => id) hlinked hle (fun id hid => ?_) hid hk
  rw [h.get? hsize hid]
  cases f.get? id with
  | none => rfl
  | some node =>
      have hmap : node.kind.map (fun id => id) = node.kind := NodeKind.map_id _
      rw [Option.map_some, Option.map_some, hmap]

theorem Extends.unfold (h : f.Extends f') (hlinked : f.Linked) (hsize : f'.size ≤ 4294967295)
    (hid : id.Below f.size) : (f'.unfold id).bare = (f.unfold id).bare :=
  h.unfoldWith hlinked hsize hid (.inr (Nat.lt_succ_self _))

end Forest

/-- The tree whose node is of a kind, without spans. -/
def Tree.of (k : NodeKind Tree) : Tree := .node k.label Span.none k.children

namespace Forest

variable {f f' : Forest} {id : NodeId} {t : Tree}

/-- Whether a tree stands below a node, which may be the absent one. -/
def Shows (f : Forest) (id : NodeId) (t : Tree) : Prop :=
  id.Below f.size ∧ (f.unfold id).bare = t

theorem Shows.extends (h : f.Shows id t) (hextends : f.Extends f') (hlinked : f.Linked)
    (hsize : f'.size ≤ 4294967295) : f'.Shows id t :=
  ⟨h.1.mono hextends.1, by rw [hextends.unfold hlinked hsize h.1, h.2]⟩

theorem shows_absent (hsize : f.size ≤ 4294967295) : f.Shows NodeId.absent .absent := by
  refine ⟨.inl rfl, ?_⟩
  rw [unfold_absent hsize, Tree.bare]

/-- The tree below a new node is made of the trees below its children. -/
theorem shows_push (hlinked : f.Linked) (hsize : f.size < 4294967295) {k : NodeKind NodeId}
    (hk : ∀ id ∈ k.children, id.Below f.size) (span : Span) :
    (f.push ⟨k, span⟩).2.Shows f.nextId (.of (k.map fun id => (f.unfold id).bare)) := by
  have hextends := f.extends_push ⟨k, span⟩
  have hsize' : (f.push ⟨k, span⟩).2.size ≤ 4294967295 := by
    rw [size_push]
    exact hsize
  have hindex : f.nextId.index.toNat = f.size := nextId_index hsize
  have hnode := get?_push_nextId hsize ⟨k, span⟩
  refine ⟨.inr (by rw [hindex, size_push]; exact Nat.lt_succ_self _), ?_⟩
  rw [unfold, unfoldWith, hnode, Tree.of, NodeKind.label_map, NodeKind.children_map]
  simp only [Tree.bare, Tree.bareAll_eq_map, List.map_map]
  congr 1
  apply List.map_congr_left
  intro child hchild
  exact hextends.unfoldWith hlinked hsize' (hk child hchild) (hindex ▸ hk child hchild)

/-- The tree below a node tells its kind, up to the numbers of its children. -/
theorem kind?_of_unfoldWith {n : Nat} {k : NodeKind Tree}
    (h : (f.unfoldWith n id).bare = .of k) :
    ∃ kind, f.kind? id = some kind ∧ kind.label = k.label
      ∧ ∃ m, kind.children.map (fun child => (f.unfoldWith m child).bare) = k.children := by
  cases n with
  | zero => cases h
  | succ n =>
      cases hnode : f.get? id with
      | none =>
          rw [unfoldWith, hnode] at h
          cases h
      | some node =>
          rw [unfoldWith, hnode, Tree.of] at h
          simp only [Tree.bare, Tree.bareAll_eq_map, List.map_map, Tree.node.injEq, true_and] at h
          exact ⟨node.kind, by rw [kind?, hnode, Option.map_some], h.1, n, h.2⟩

theorem name_of_unfoldWith {n : Nat} {x : String} (h : (f.unfoldWith n id).bare = .of (.name x)) :
    f.kind? id = some (.name x) := by
  obtain ⟨kind, hkind, hlabel, -⟩ := kind?_of_unfoldWith h
  have hname : kind.label = .name x := hlabel
  cases kind <;> simp [NodeKind.label, NodeKind.map, NodeKind.mapM] at hname
  rw [hkind, hname]

/-- Nodes with the trees of names are names. -/
theorem names_of_unfoldWith {n : Nat} {names : List String} {ids : List NodeId}
    (h : ids.map (fun id => (f.unfoldWith n id).bare) = names.map fun x => .of (.name x)) :
    ids.map f.kind? = names.map fun x => some (.name x) := by
  induction ids generalizing names with
  | nil =>
      cases names with
      | nil => rfl
      | cons x names => cases h
  | cons id ids ih =>
      cases names with
      | nil => cases h
      | cons x names =>
          rw [List.map_cons, List.map_cons, List.cons.injEq] at h
          rw [List.map_cons, List.map_cons, name_of_unfoldWith h.1, ih h.2]

end Forest

end MatrixScript
