import MatrixScript.Proofs.Embedded.Cursors
import MatrixScript.Proofs.Reading.Trees
import MatrixScript.Proofs.Reading.Expressions

/-!
# Nodes and steps in two readings

The longer reading has stored some nodes before, so the numbers of the nodes that both readings
store differ by the number of those. Trees do not show numbers: the trees below corresponding nodes
are the same but for their spans.

A step of reading is followed when, wherever it succeeds on the text alone, the same step succeeds
within the longer text and gives the same up to node numbers. Two conditions come with this. The
step does not take nodes away, so the final forest bounds all that come before. And it only succeeds
where something is left to read, if something is left behind it; a step that ends by passing a
closing delimiter succeeds only there in any case.
-/

namespace MatrixScript

/-! ### Numbers -/

/-- The number of the same node where `n` nodes were stored before. -/
def NodeId.shift (n : Nat) (id : NodeId) : NodeId :=
  if n + id.index.toNat < 4294967295 then ⟨UInt32.ofNat (n + id.index.toNat)⟩ else absent

/-- What a step of reading can give: data with node numbers in it. -/
class Numbered (α : Type) where
  ids : α → List NodeId
  shift : Nat → α → α

instance : Numbered NodeId := ⟨fun id => [id], NodeId.shift⟩

instance : Numbered Unit := ⟨fun _ => [], fun _ u => u⟩

instance : Numbered Bool := ⟨fun _ => [], fun _ b => b⟩

instance : Numbered (NodeKind NodeId) := ⟨NodeKind.children, fun n k => k.map (NodeId.shift n)⟩

instance : Numbered Statement := ⟨fun t => [t.root], fun n t => ⟨t.root.shift n, t.muted⟩⟩

instance {α : Type} [Numbered α] : Numbered (List α) :=
  ⟨fun xs => xs.flatMap Numbered.ids, fun n xs => xs.map (Numbered.shift n)⟩

/-- Whether all node numbers in the data lie below a bound. -/
def Numbered.Below {α : Type} [Numbered α] (n : Nat) (a : α) : Prop :=
  ∀ id ∈ ids a, id.Below n

theorem Numbered.Below.mono {α : Type} [Numbered α] {a : α} {m n : Nat}
    (h : Numbered.Below m a) (hle : m ≤ n) : Numbered.Below n a :=
  fun id hid => (h id hid).mono hle

theorem NodeId.shift_absent (n : Nat) : absent.shift n = absent := by
  have hindex : absent.index.toNat = 4294967295 := rfl
  rw [shift, hindex, if_neg (by omega)]

theorem NodeId.shift_index {n : Nat} {id : NodeId} (h : n + id.index.toNat < 4294967295) :
    (id.shift n).index.toNat = n + id.index.toNat := by
  rw [shift, if_pos h]
  simp only [UInt32.toNat_ofNat']
  omega

/-! ### Corresponding forests -/

namespace Embedding

variable {E : Embedding} {f f' : Forest}

/-- Whether the nodes of a text can be numbered where it stands. -/
def Fits (E : Embedding) (f : Forest) : Prop := E.before.size + f.size ≤ 4294967295

/-- The forests of the text on its own and of the longer one. -/
structure Forests (E : Embedding) (f f' : Forest) : Prop where
  linked : f.Linked
  size : f'.size = E.before.size + f.size
  before : ∀ i, i < E.before.size → f'.nodes[i]? = E.before.nodes[i]?
  node : ∀ (i : Nat) (node : Node), f.nodes[i]? = some node →
    ∃ span, f'.nodes[E.before.size + i]?
      = some ⟨node.kind.map (NodeId.shift E.before.size), span⟩

theorem Forests.push (h : E.Forests f f') {kind : NodeKind NodeId} (span span' : Span)
    (hkind : Numbered.Below f.size kind) :
    E.Forests (f.push ⟨kind, span⟩).2
      (f'.push ⟨kind.map (NodeId.shift E.before.size), span'⟩).2 := by
  constructor
  · exact h.linked.push hkind
  · rw [Forest.size_push, Forest.size_push, h.size, Nat.add_assoc]
  · intro i hi
    have hne : i ≠ f'.size := by
      rw [h.size]
      omega
    rw [Forest.get?_push, if_neg hne]
    exact h.before i hi
  · intro i node hi
    rw [Forest.get?_push] at hi
    rw [Forest.get?_push]
    by_cases hsize : i = f.size
    · rw [if_pos hsize] at hi
      cases hi
      exact ⟨span', by rw [if_pos (by rw [h.size, hsize])]⟩
    · rw [if_neg hsize] at hi
      have hne : E.before.size + i ≠ f'.size := by
        rw [h.size]
        omega
      rw [if_neg hne]
      exact h.node i node hi

theorem Forests.nextId (h : E.Forests f f') (hfits : E.before.size + f.size < 4294967295) :
    f'.nextId = f.nextId.shift E.before.size := by
  have hindex : f.nextId.index.toNat = f.size := Forest.nextId_index (by omega)
  rw [NodeId.shift, hindex, if_pos hfits, Forest.nextId, h.size,
    NodeId.ofPlace_eq (Nat.le_of_lt hfits)]

theorem Forests.get? (h : E.Forests f f') (hfits : E.Fits f) (id : NodeId) :
    (f'.get? (id.shift E.before.size)).map (·.kind)
      = ((f.get? id).map (·.kind)).map (·.map (NodeId.shift E.before.size)) := by
  unfold Fits at hfits
  unfold Forest.get?
  cases hnode : f.nodes[id.index.toNat]? with
  | some node =>
      have hlt := Forest.lt_size hnode
      obtain ⟨span, hspan⟩ := h.node _ node hnode
      rw [NodeId.shift_index (by omega), hspan]
      rfl
  | none =>
      have hle : f.size ≤ id.index.toNat := Array.getElem?_eq_none_iff.mp hnode
      have hnone : f'.nodes[(id.shift E.before.size).index.toNat]? = none := by
        apply Array.getElem?_eq_none
        change f'.size ≤ _
        rw [h.size]
        by_cases hlt : E.before.size + id.index.toNat < 4294967295
        · rw [NodeId.shift_index hlt]
          omega
        · rw [NodeId.shift, if_neg hlt]
          exact hfits
      rw [hnone]
      rfl

theorem Forests.kind? (h : E.Forests f f') (hfits : E.Fits f) (id : NodeId) :
    f'.kind? (id.shift E.before.size)
      = (f.kind? id).map (·.map (NodeId.shift E.before.size)) :=
  h.get? hfits id

/-- The trees below corresponding nodes agree but for their spans. -/
theorem Forests.shows (h : E.Forests f f') (hfits : E.Fits f) {id : NodeId} {t : Tree}
    (hid : f.Shows id t) : f'.Shows (id.shift E.before.size) t := by
  obtain ⟨hbelow, rfl⟩ := hid
  unfold Fits at hfits
  rcases hbelow with rfl | hlt
  · rw [NodeId.shift_absent, Forest.unfold_absent (by omega), Tree.bare]
    exact Forest.shows_absent (by rw [h.size]; exact hfits)
  · have hindex : (id.shift E.before.size).index.toNat = E.before.size + id.index.toNat :=
      NodeId.shift_index (by omega)
    refine ⟨.inr (by rw [hindex, h.size]; omega), ?_⟩
    exact Forest.unfold_congr h.linked (by omega) (fun id _ => h.get? hfits id) (.inr hlt)
      (.inr (by omega))

end Embedding

/-! ### Steps -/

open Reading

/-- No condition on where a step ends. -/
def Anywhere (_ : Cursor) : Prop := True

theorem Numbered.below_all {α : Type} [Numbered α] {n : Nat} (hn : 4294967296 ≤ n) (a : α) :
    Below n a :=
  fun id _ => .inr (Nat.lt_of_lt_of_le id.index.toNat_lt hn)

namespace Numbered

variable {α : Type} [Numbered α] {n : Nat} {a : α} {as : List α}

theorem below_nil : Below n ([] : List α) := nofun

theorem below_cons (ha : Below n a) (has : Below n as) : Below n (a :: as) := by
  intro id hid
  rcases List.mem_append.mp hid with hid | hid
  · exact ha id hid
  · exact has id hid

theorem below_reverse (h : Below n as) : Below n as.reverse := by
  intro id hid
  obtain ⟨a, ha, hid⟩ := List.mem_flatMap.mp hid
  exact h id (List.mem_flatMap.mpr ⟨a, List.mem_reverse.mp ha, hid⟩)

theorem shift_reverse (n : Nat) (as : List α) :
    shift n as.reverse = (shift n as : List α).reverse :=
  List.map_reverse

end Numbered

namespace Embedding

variable {E : Embedding} {r r' r₁ : Reader}

/-- What one operand offers to the next, in both readings: the same, unless it was offered before
the text started. -/
def Premises (E : Embedding) (p p' : Option (List Char × Nat)) : Prop :=
  (∀ q ∈ p, q.2 ≤ E.length)
    ∧ (p' = p.map (fun q => (q.1, q.2 + E.bytes)) ∨ p = none ∧ ∀ q ∈ p', q.2 < E.bytes)

/-- Corresponding readers of the text on its own and of the longer one. -/
structure Readers (E : Embedding) (r r' : Reader) : Prop where
  cursor : E.Cursors r.cursor r'.cursor
  forest : E.Forests r.forest r'.forest
  premise : E.Premises r.premise r'.premise
  afterControlFlow : r'.afterControlFlow = r.afterControlFlow

theorem Readers.movedTo {c c' : Cursor} (h : E.Readers r r') (hc : E.Cursors c c') :
    E.Readers (r.movedTo c) (r'.movedTo c') :=
  ⟨hc, h.forest, h.premise, h.afterControlFlow⟩

theorem Readers.withNode {kind : NodeKind NodeId} (span span' : Span) (h : E.Readers r r')
    (hkind : Numbered.Below r.forest.size kind) :
    E.Readers (r.withNode kind span)
      (r'.withNode (kind.map (NodeId.shift E.before.size)) span') :=
  ⟨h.cursor, h.forest.push span span' hkind, h.premise, h.afterControlFlow⟩

variable {α β : Type} [Numbered α] [Numbered β]

/-- The second step does within the longer text what the first does, wherever `Q` holds at the end
of the first. Node numbers below `n` may be used. -/
structure Tracks (E : Embedding) (n : Nat) (Q : Cursor → Prop) (f f' : Reading α) : Prop where
  grows {r r₁ : Reader} {a : α} : f r = .ok (a, r₁) → r.forest.size ≤ r₁.forest.size
  steady {r r₁ : Reader} {a : α} : f r = .ok (a, r₁) → Q r₁.cursor → Alive r.cursor
  follows {r r' r₁ : Reader} {a : α} : E.Readers r r' → n ≤ r.forest.size → f r = .ok (a, r₁) →
    Q r₁.cursor → E.Fits r₁.forest → Numbered.Below r₁.forest.size a
      ∧ ∃ r₁', f' r' = .ok (Numbered.shift E.before.size a, r₁') ∧ E.Readers r₁ r₁'

/-- Like `Tracks`, for steps that leave the cursor where it is. -/
structure TracksInPlace (E : Embedding) (n : Nat) (f f' : Reading α) : Prop where
  grows {r r₁ : Reader} {a : α} : f r = .ok (a, r₁) → r.forest.size ≤ r₁.forest.size
  stays {r r₁ : Reader} {a : α} : f r = .ok (a, r₁) → r₁.cursor = r.cursor
  follows {r r' r₁ : Reader} {a : α} : E.Readers r r' → n ≤ r.forest.size → f r = .ok (a, r₁) →
    E.Fits r₁.forest → Numbered.Below r₁.forest.size a
      ∧ ∃ r₁', f' r' = .ok (Numbered.shift E.before.size a, r₁') ∧ E.Readers r₁ r₁'

theorem Fits.mono {f f₁ : Forest} (h : E.Fits f₁) (hle : f.size ≤ f₁.size) : E.Fits f := by
  unfold Fits at *
  omega

variable {n : Nat} {Q : Cursor → Prop} {f f' : Reading α} {g g' : α → Reading β}

namespace Tracks

theorem weaken (h : E.Tracks n Anywhere f f') : E.Tracks n Q f f' where
  grows := h.grows
  steady hf _ := h.steady hf trivial
  follows hr hn hf _ hfits := h.follows hr hn hf trivial hfits

theorem bind (hf : E.Tracks n Alive f f')
    (hg : ∀ m a, n ≤ m → Numbered.Below m a →
      E.Tracks m Q (g a) (g' (Numbered.shift E.before.size a))) :
    E.Tracks n Q (f >>= g) (f' >>= g') := by
  have hlarge (a : α) := hg (max n 4294967296) a (Nat.le_max_left _ _)
    (Numbered.below_all (Nat.le_max_right _ _) a)
  constructor
  · intro r r₂ b h
    obtain ⟨a, r₁, hfr, hgr⟩ := bind_eq_ok_iff.mp h
    exact Nat.le_trans (hf.grows hfr) ((hlarge a).grows hgr)
  · intro r r₂ b h hQ
    obtain ⟨a, r₁, hfr, hgr⟩ := bind_eq_ok_iff.mp h
    exact hf.steady hfr ((hlarge a).steady hgr hQ)
  · intro r r' r₂ b hr hn h hQ hfits
    obtain ⟨a, r₁, hfr, hgr⟩ := bind_eq_ok_iff.mp h
    have halive := (hlarge a).steady hgr hQ
    have hgrows := (hlarge a).grows hgr
    obtain ⟨ha, r₁', hfr', hr₁⟩ := hf.follows hr hn hfr halive (hfits.mono hgrows)
    have hn₁ : n ≤ r₁.forest.size := Nat.le_trans hn (hf.grows hfr)
    obtain ⟨hb, r₂', hgr', hr₂⟩ := (hg _ a hn₁ ha).follows hr₁ (Nat.le_refl _) hgr hQ hfits
    exact ⟨hb, r₂', by rw [bind_ok hfr', hgr'], hr₂⟩

/-- Behind a step in two readings, another one that leaves the cursor in place. -/
theorem bind_inPlace (hf : E.Tracks n Q f f')
    (hg : ∀ m a, n ≤ m → Numbered.Below m a →
      E.TracksInPlace m (g a) (g' (Numbered.shift E.before.size a))) :
    E.Tracks n Q (f >>= g) (f' >>= g') := by
  have hlarge (a : α) := hg (max n 4294967296) a (Nat.le_max_left _ _)
    (Numbered.below_all (Nat.le_max_right _ _) a)
  constructor
  · intro r r₂ b h
    obtain ⟨a, r₁, hfr, hgr⟩ := bind_eq_ok_iff.mp h
    exact Nat.le_trans (hf.grows hfr) ((hlarge a).grows hgr)
  · intro r r₂ b h hQ
    obtain ⟨a, r₁, hfr, hgr⟩ := bind_eq_ok_iff.mp h
    rw [(hlarge a).stays hgr] at hQ
    exact hf.steady hfr hQ
  · intro r r' r₂ b hr hn h hQ hfits
    obtain ⟨a, r₁, hfr, hgr⟩ := bind_eq_ok_iff.mp h
    rw [(hlarge a).stays hgr] at hQ
    have hgrows := (hlarge a).grows hgr
    obtain ⟨ha, r₁', hfr', hr₁⟩ := hf.follows hr hn hfr hQ (hfits.mono hgrows)
    have hn₁ : n ≤ r₁.forest.size := Nat.le_trans hn (hf.grows hfr)
    obtain ⟨hb, r₂', hgr', hr₂⟩ := (hg _ a hn₁ ha).follows hr₁ (Nat.le_refl _) hgr hfits
    exact ⟨hb, r₂', by rw [bind_ok hfr', hgr'], hr₂⟩

theorem within {construct : Construct} (h : E.Tracks n Q f f') :
    E.Tracks n Q (within construct f) (within construct f') where
  grows hf := h.grows (within_eq_ok_iff.mp hf)
  steady hf := h.steady (within_eq_ok_iff.mp hf)
  follows hr hn hf hQ hfits := by
    obtain ⟨ha, r₁', hf', hr₁⟩ := h.follows hr hn (within_eq_ok_iff.mp hf) hQ hfits
    exact ⟨ha, r₁', within_eq_ok_iff.mpr hf', hr₁⟩

theorem rounds_bind {g g' : Nat → Reading β} (hg : ∀ k k', k ≤ k' → E.Tracks n Q (g k) (g' k')) :
    E.Tracks n Q (Surroundings.rounds >>= g) (Surroundings.rounds >>= g') where
  grows hf := (hg _ _ (Nat.le_refl _)).grows (Reading.rounds_bind g ▸ hf)
  steady hf := (hg _ _ (Nat.le_refl _)).steady (Reading.rounds_bind g ▸ hf)
  follows hr hn hf hQ hfits := by
    have hlength := Nat.succ_le_succ hr.cursor.length_le
    exact (hg _ _ hlength).follows hr hn (Reading.rounds_bind g ▸ hf) hQ hfits

/-- What never succeeds is followed by anything. -/
theorem of_fails (h : ∀ r p, f r ≠ .ok p) : E.Tracks n Q f f' where
  grows hf := absurd hf (h _ _)
  steady hf := absurd hf (h _ _)
  follows _ _ hf := absurd hf (h _ _)

end Tracks

namespace TracksInPlace

theorem tracks (h : E.TracksInPlace n f f') : E.Tracks n Alive f f' where
  grows := h.grows
  steady hf hQ := by rwa [h.stays hf] at hQ
  follows hr hn hf _ := h.follows hr hn hf

theorem pure {a : α} (ha : Numbered.Below n a) :
    E.TracksInPlace n (pure a) (pure (Numbered.shift E.before.size a)) := by
  constructor
  · intro r r₁ b h
    obtain ⟨-, rfl⟩ := pure_eq_ok_iff.mp h
    exact Nat.le_refl _
  · intro r r₁ b h
    obtain ⟨-, rfl⟩ := pure_eq_ok_iff.mp h
    rfl
  · intro r r' r₁ b hr hn h hfits
    obtain ⟨rfl, rfl⟩ := pure_eq_ok_iff.mp h
    exact ⟨ha.mono hn, r', rfl, hr⟩

theorem allocFrom {kind : NodeKind NodeId} (hkind : Numbered.Below n kind) (start start' : Nat) :
    E.TracksInPlace n (allocFrom kind start)
      (allocFrom (Numbered.shift E.before.size kind) start') := by
  constructor
  · intro r r₁ id h
    obtain ⟨-, rfl⟩ := allocFrom_eq_ok_iff.mp h
    rw [Reader.withNode, Forest.size_push]
    exact Nat.le_succ _
  · intro r r₁ id h
    obtain ⟨-, rfl⟩ := allocFrom_eq_ok_iff.mp h
    rfl
  · intro r r' r₁ id hr hn h hfits
    obtain ⟨rfl, rfl⟩ := allocFrom_eq_ok_iff.mp h
    have hsize : E.before.size + r.forest.size < 4294967295 := by
      unfold Fits at hfits
      rw [Reader.withNode, Forest.size_push] at hfits
      omega
    refine ⟨?_, _, allocFrom_eq_ok_iff.mpr ⟨(hr.forest.nextId hsize).symm, rfl⟩,
      hr.withNode _ _ (hkind.mono hn)⟩
    intro id hid
    cases List.mem_singleton.mp hid
    rw [Reader.withNode, Forest.size_push]
    exact .inr (by rw [Forest.nextId_index (by omega)]; exact Nat.lt_succ_self _)

theorem allocFrom_of {kind kind' : NodeKind NodeId} (hkind : Numbered.Below n kind)
    (hshift : Numbered.shift E.before.size kind = kind') (start start' : Nat) :
    E.TracksInPlace n (Reading.allocFrom kind start) (Reading.allocFrom kind' start') :=
  hshift ▸ allocFrom hkind start start'

end TracksInPlace

end Embedding

end MatrixScript
