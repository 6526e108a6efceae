import MatrixScript.Evaluation.Calling
import MatrixScript.Proofs.Alike.Outcomes
import MatrixScript.Proofs.Reading.Refills

/-!
# Bodies side by side

A part of one forest stands in another one under other numbers. What is copied from there is the
same in both, node by node but for the spans, and the copies have the same numbers. How much fuel
the copies take depends on the numbers in the original, so it is enough in both only if the links
lead to smaller numbers there, or if the numbers are the same.
-/

namespace MatrixScript

open Forest

variable {K : String → Prop} {R : Span → Span → Prop} {f f' : Forest} {g : NodeId → NodeId}
  {D : NodeId → Prop}

/-- The same kind of node with the same children, and a name only if it is one in `K`. -/
structure Node.Alike (K : String → Prop) (R : Span → Span → Prop) (n n' : Node) : Prop where
  kind : n'.kind = n.kind
  span : R n.span n'.span
  known : ∀ name, n.kind = .name name → K name

/-- The same nodes but for their spans. -/
def Forest.Alike (K : String → Prop) (R : Span → Span → Prop) (f f' : Forest) : Prop :=
  List.Forall₂ (Node.Alike K R) f.nodes.toList f'.nodes.toList

/-- If the node is there, it is in `D`, and otherwise it has no counterpart either. -/
def NodeId.Guided (g : NodeId → NodeId) (D : NodeId → Prop) (id : NodeId) : Prop :=
  (g id).isPresent = id.isPresent ∧ (id.isPresent = true → D id)

/-- Children that may be missing are in `D` if they are there, and all others are in any case. -/
def NodeKind.Guided (g : NodeId → NodeId) (D : NodeId → Prop) (k : NodeKind NodeId) : Prop :=
  ∀ slot ∈ k.slots, (g slot.1).isPresent = slot.1.isPresent
    ∧ ((slot.2 = true → slot.1.isPresent = true) → D slot.1)

theorem NodeKind.Guided.required {k : NodeKind NodeId} (h : k.Guided g D) {id : NodeId}
    (hslot : (id, false) ∈ k.slots) : D id :=
  (h _ hslot).2 nofun

theorem NodeKind.Guided.optional {k : NodeKind NodeId} (h : k.Guided g D) {id : NodeId}
    (hslot : (id, true) ∈ k.slots) : id.Guided g D :=
  (h _ hslot).imp_right fun hD hpresent => hD fun _ => hpresent

theorem NodeKind.Guided.child {k : NodeKind NodeId} (h : k.Guided g D) {id : NodeId}
    (hchild : id ∈ k.children) : id.Guided g D := by
  obtain ⟨slot, hslot, rfl⟩ := List.mem_map.mp hchild
  exact (h slot hslot).imp_right fun hD hpresent => hD fun _ => hpresent

/-- The nodes of one forest that are in `D` stand in the other one under the numbers that `g` gives
them. -/
structure Forest.Mirrors (f f' : Forest) (g : NodeId → NodeId) (D : NodeId → Prop)
    (K : String → Prop) (R : Span → Span → Prop) : Prop where
  node : ∀ id, D id → Option.Rel (fun n n' => n'.kind = n.kind.map g ∧ R n.span n'.span)
    (f.get? id) (f'.get? (g id))
  guided : ∀ id node, D id → f.get? id = some node → node.kind.Guided g D
  known : ∀ id node, D id → f.get? id = some node → ∀ name, node.kind = .name name → K name
  /-- A link that leads nowhere is the same in both. -/
  missing : ∀ id, D id → f.get? id = none → g id = id
  enough : (∀ id, g id = id)
    ∨ f.Linked ∧ (f'.Linked ∨ ∀ id, D id → id.index.toNat ≤ (g id).index.toNat)

namespace Forest

theorem Alike.size_eq (h : f.Alike K R f') : f'.size = f.size := by
  have hlength := List.Forall₂.length_eq h
  exact hlength.symm

theorem Alike.push (h : f.Alike K R f') {n n' : Node} (hn : n.Alike K R n') :
    (f.push n).2.Alike K R (f'.push n').2 := by
  unfold Alike Forest.push
  rw [Array.toList_push, Array.toList_push]
  exact List.rel_append h (.cons hn .nil)

theorem Alike.imp {R' : Span → Span → Prop} (h : f.Alike K R f') (hR : ∀ t t', R t t' → R' t t') :
    f.Alike K R' f' :=
  List.Forall₂.imp (fun _ _ hn => ⟨hn.kind, hR _ _ hn.span, hn.known⟩) h

theorem Alike.nextId_eq (h : f.Alike K R f') : f'.nextId = f.nextId := by
  rw [nextId, nextId, h.size_eq]

/-- Forests with the same nodes and spans are the same. -/
theorem Alike.eq (h : f.Alike K Eq f') : f' = f := by
  have hnodes : f.nodes.toList = f'.nodes.toList := by
    refine List.forall₂_eq_eq_eq ▸ List.Forall₂.imp (fun n n' hn => ?_) h
    obtain ⟨kind, span⟩ := n
    obtain ⟨hkind, hspan, -⟩ := hn
    cases n'
    cases hkind
    cases hspan
    rfl
  cases f
  cases f'
  rw [mk.injEq]
  exact (Array.toList_inj.mp hnodes).symm

theorem Alike.known (h : f.Alike K R f') {node : Node} (hnode : node ∈ f.nodes.toList)
    {name : String} (hname : node.kind = .name name) : K name := by
  have hall {ns ns' : List Node} (h : List.Forall₂ (Node.Alike K R) ns ns') :
      ∀ n ∈ ns, ∀ name, n.kind = .name name → K name := by
    induction h with
    | nil => exact nofun
    | cons hn _ ih => exact List.forall_mem_cons.mpr ⟨hn.known, ih⟩
  exact hall h node hnode name hname

theorem Alike.namesIn_eq (h : f.Alike K R f') (params : List String) :
    Setting.namesIn f' params = Setting.namesIn f params := by
  unfold Setting.namesIn
  have hnodes : List.Forall₂ (Node.Alike K R) f.nodes.toList f'.nodes.toList := h
  generalize f.nodes.toList = ns at hnodes
  generalize f'.nodes.toList = ns' at hnodes
  induction hnodes with
  | nil => rfl
  | cons hn _ ih => rw [List.filterMap_cons, List.filterMap_cons, hn.kind, ih]

end Forest

/-! ### Copies -/

/-- Two copies into forests that are alike. What they give is the same and has a property, or they
fail at the same link. -/
def CopiesAlike {α : Type} (K : String → Prop) (R : Span → Span → Prop) (P : α → Prop)
    (x x' : StateT Forest (Except NodeId) α) : Prop :=
  ∀ f f' : Forest, f.Alike K R f' →
    Concur Eq (fun p p' => P p.1 ∧ p'.1 = p.1 ∧ p.2.Alike K R p'.2) (x.run f) (x'.run f')

section Copies

variable {α β : Type} {P : α → Prop} {Q : β → Prop} {x x' : StateT Forest (Except NodeId) α}
  {F F' : NodeId → StateT Forest (Except NodeId) NodeId}

theorem copiesAlike_pure {a : α} (h : P a) : CopiesAlike K R P (pure a) (pure a) :=
  fun _ _ halike => .ok ⟨h, rfl, halike⟩

theorem CopiesAlike.bind {y y' : α → StateT Forest (Except NodeId) β}
    (hx : CopiesAlike K R P x x') (hy : ∀ a, P a → CopiesAlike K R Q (y a) (y' a)) :
    CopiesAlike K R Q (x >>= y) (x' >>= y') := by
  intro f f' h
  rw [StateT.run_bind, StateT.run_bind]
  refine (hx f f' h).bind fun p p' ⟨hp, hsame, hcopies⟩ => ?_
  rw [hsame]
  exact hy p.1 hp p.2 p'.2 hcopies

/-- Copies of the children of a node. -/
abbrev CopiesChildren (K : String → Prop) (R : Span → Span → Prop)
    (F F' : NodeId → StateT Forest (Except NodeId) NodeId) (children : List NodeId) : Prop :=
  ∀ c ∈ children, CopiesAlike K R (fun _ => True) (F c) (F' c)

theorem copiesAlike_mapM {γ : Type} {F F' : γ → StateT Forest (Except NodeId) α} {xs : List γ}
    (h : ∀ c ∈ xs, CopiesAlike K R (fun _ => True) (F c) (F' c)) :
    CopiesAlike K R (fun _ => True) (xs.mapM F) (xs.mapM F') := by
  induction xs with
  | nil => exact copiesAlike_pure trivial
  | cons c xs ih =>
      rw [List.mapM_cons, List.mapM_cons]
      refine (h c List.mem_cons_self).bind fun a _ => ?_
      refine (ih fun c' hc' => h c' (List.mem_cons_of_mem c hc')).bind fun as _ => ?_
      exact copiesAlike_pure trivial

/-- A kind whose children are copied alike. The copy is a name only if the kind is. -/
theorem copiesAlike_kind {k : NodeKind NodeId} (h : CopiesChildren K R F F' k.children) :
    CopiesAlike K R (fun copy => ∀ name, copy = .name name → k = .name name) (k.mapM F)
      (k.mapM F') := by
  rw [NodeKind.mapM_eq_refill, NodeKind.mapM_eq_refill, map_eq_pure_bind, map_eq_pure_bind]
  exact (copiesAlike_mapM h).bind fun ids _ =>
    copiesAlike_pure fun name hname => NodeKind.eq_name_of_refill hname

end Copies

theorem NodeKind.mapM_map {m : Type → Type} [Monad m] [LawfulMonad m] {α β γ : Type} (g : α → β)
    (F : β → m γ) (k : NodeKind α) : (k.map g).mapM F = k.mapM fun a => F (g a) := by
  cases k with
  | call a args => simp [mapM, List.mapM_map, Function.comp_def]
  | matrix rows => simp [mapM, List.mapM_map, Function.comp_def]
  | tuple items => simp [mapM, List.mapM_map, Function.comp_def]
  | block statements => simp [mapM, List.mapM_map, Function.comp_def]
  | _ => rfl

theorem NodeId.Below.lt_of_isPresent {n : Nat} {id : NodeId} (h : id.Below n)
    (hid : id.isPresent = true) : id.index.toNat < n :=
  h.resolve_left (bne_iff_ne.mp hid)

namespace Forest

/-- Rounds that are enough to copy what is below a node in both forests. -/
def Rounds (f f' : Forest) (g : NodeId → NodeId) (id : NodeId) (fuel fuel' : Nat) : Prop :=
  (∀ id, g id = id) ∧ fuel' = fuel
    ∨ f.Linked ∧ id.Below fuel ∧ (f'.Linked ∧ (g id).Below fuel' ∨ fuel ≤ fuel')

namespace Rounds

variable {fuel fuel' : Nat} {id : NodeId}

theorem exists_succ (h : f.Rounds f' g id (fuel + 1) fuel') (hid : (g id).isPresent = true) :
    ∃ k, fuel' = k + 1 := by
  rcases h with ⟨-, rfl⟩ | ⟨-, -, ⟨-, hbelow⟩ | hle⟩
  · exact ⟨fuel, rfl⟩
  · have hlt := hbelow.lt_of_isPresent hid
    exact ⟨fuel' - 1, by omega⟩
  · exact ⟨fuel' - 1, by omega⟩

/-- Links lead to earlier nodes, so one round less is enough below each child. -/
theorem child {node node' : Node} {c : NodeId} (h : f.Rounds f' g id (fuel + 1) (fuel' + 1))
    (hid : id.isPresent = true) (hid' : (g id).isPresent = true) (hnode : f.get? id = some node)
    (hnode' : f'.get? (g id) = some node') (hkind : node'.kind = node.kind.map g)
    (hc : c ∈ node.kind.children) : f.Rounds f' g c fuel fuel' := by
  rcases h with ⟨hsame, hfuel⟩ | ⟨hlinked, hbelow, hfuel⟩
  · exact .inl ⟨hsame, Nat.succ.inj hfuel⟩
  · have hlt := Nat.le_of_lt_succ (hbelow.lt_of_isPresent hid)
    refine .inr ⟨hlinked, (hlinked _ node hnode c hc).mono hlt, ?_⟩
    refine hfuel.imp (fun hlinked' => ⟨hlinked'.1, ?_⟩) Nat.le_of_succ_le_succ
    have hlt' := Nat.le_of_lt_succ (hlinked'.2.lt_of_isPresent hid')
    have hcopied : g c ∈ node'.kind.children := by
      rw [hkind, NodeKind.children_map]
      exact List.mem_map_of_mem hc
    exact (hlinked'.1 _ node' hnode' _ hcopied).mono hlt'

end Rounds

end Forest

namespace Forest.Mirrors

/-- Every forest mirrors itself. -/
theorem same
    (hclosed : ∀ id node, D id → f.get? id = some node → ∀ slot ∈ node.kind.slots,
      (slot.2 = true → slot.1.isPresent = true) → D slot.1)
    (hknown : ∀ id node, D id → f.get? id = some node → ∀ name, node.kind = .name name → K name) :
    f.Mirrors f id D K Eq where
  node i _ := by
    change Option.Rel _ (f.get? i) (f.get? i)
    cases f.get? i with
    | none => exact .none
    | some node => exact .some ⟨node.kind.map_id.symm, rfl⟩
  guided id node hid hnode slot hslot := ⟨rfl, hclosed id node hid hnode slot hslot⟩
  known := hknown
  missing _ _ _ := rfl
  enough := .inl fun _ => rfl

/-- Copies of the same part are alike. The induction is on the fuel for the first copy. -/
theorem copyInto (h : f.Mirrors f' g D K R) (fuel fuel' : Nat) {id : NodeId} (hid : id.Guided g D)
    (hfuel : f.Rounds f' g id fuel fuel') :
    CopiesAlike K R (fun _ => True) (f.copyInto fuel id) (f'.copyInto fuel' (g id)) := by
  induction fuel generalizing fuel' id with
  | zero =>
      unfold Forest.copyInto
      rw [hid.1]
      cases hpresent : id.isPresent with
      | false => exact copiesAlike_pure (a := NodeId.absent) trivial
      | true =>
          obtain ⟨hsame, rfl⟩ := hfuel.resolve_right fun hlinked =>
            Nat.not_lt_zero _ (hlinked.2.1.lt_of_isPresent hpresent)
          rw [hsame]
          exact fun _ _ _ => .error rfl
  | succ fuel ih =>
      have hpresence := hid.1
      cases hpresent : id.isPresent with
      | false =>
          unfold Forest.copyInto
          rw [hpresence, hpresent]
          exact copiesAlike_pure (a := NodeId.absent) trivial
      | true =>
          have hpresent' := hpresence.trans hpresent
          obtain ⟨k, rfl⟩ := hfuel.exists_succ hpresent'
          unfold Forest.copyInto
          rw [hpresence, hpresent]
          have hid := hid.2 hpresent
          have hnodes := h.node id hid
          generalize hfound : f'.get? (g id) = found at hnodes
          cases hnode : f.get? id with
          | none =>
              rw [hnode] at hnodes
              cases hnodes
              rw [h.missing id hid hnode]
              exact fun _ _ _ => .error rfl
          | some node =>
              rw [hnode] at hnodes
              obtain ⟨hkind, hspan⟩ | _ := hnodes
              rename_i node'
              have hchildren : CopiesAlike K R
                  (fun copy => ∀ name, copy = .name name → node.kind = .name name)
                  (node.kind.mapM (f.copyInto fuel)) (node'.kind.mapM (f'.copyInto k)) := by
                rw [hkind, NodeKind.mapM_map]
                refine copiesAlike_kind fun child hchild => ?_
                exact ih k ((h.guided id node hid hnode).child hchild)
                  (hfuel.child hpresent hpresent' hnode hfound hkind hchild)
              refine hchildren.bind fun kind hnames copy copy' hcopies => .ok ⟨trivial, ?_, ?_⟩
              · exact hcopies.nextId_eq
              · exact hcopies.push ⟨rfl, hspan, fun name hname =>
                  h.known id node hid hnode name (hnames name hname)⟩

/-- What is extracted is alike. -/
theorem extract (h : f.Mirrors f' g D K R) {id : NodeId} (hid : D id)
    (hpresent : (g id).isPresent = id.isPresent) :
    Concur Eq (fun p p' => p'.1 = p.1 ∧ p.2.Alike K R p'.2) (f.extract id)
      (f'.extract (g id)) := by
  refine (h.copyInto _ _ ⟨hpresent, fun _ => hid⟩ ?_ Forest.empty Forest.empty .nil).imp
    (fun _ _ h => h) fun p p' hp => hp.2
  have hbelow (id : NodeId) : id.Below (id.index.toNat + 1) := .inr (Nat.lt_succ_self _)
  rcases h.enough with hsame | ⟨hlinked, hlinked' | hle⟩
  · exact .inl ⟨hsame, by rw [hsame]⟩
  · exact .inr ⟨hlinked, hbelow id, .inl ⟨hlinked', hbelow (g id)⟩⟩
  · exact .inr ⟨hlinked, hbelow id, .inr (Nat.succ_le_succ (hle id hid))⟩

end Forest.Mirrors

end MatrixScript
