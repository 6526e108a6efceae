import MatrixScript.Proofs.Embedded.Steps
import MatrixScript.Proofs.Layout.Positions

/-!
# Texts in other places

A text that stands behind another one has the same nodes with other numbers, and spans that are
further to the right. What a reader of the text by itself knows is thereby carried to where the text
stands: its cursor, its nodes, and the operator that its last operand offers. Behind the text there
can be something else, in place of what was at its end when it stood by itself.

A step of reading is followed if, wherever it succeeds in the text, it succeeds where the text
stands and leaves there what it leaves in the text. What stands behind the text must not matter
where the step ends; then it did not matter where the step began. And the nodes that are left must
be few enough to be numbered behind those that were there before.

A step also leads on: the cursor moves to the right, the nodes become more, and an operator that is
offered at the end was offered before or somewhere in the text.
-/

namespace MatrixScript

open Reading

/-! ### Spans -/

/-- The span of what stands `n` bytes further to the right. -/
def Span.shift (n : Nat) (s : Span) : Span := ofRange (s.start.toNat + n) (s.stop.toNat + n)

theorem clampOffset_toNat_eq (n : Nat) : (clampOffset n).toNat = min n 4294967295 := by
  unfold clampOffset
  split
  · rw [UInt32.toNat_ofNat']
    omega
  · have hlast : (4294967295 : UInt32).toNat = 4294967295 := rfl
    rw [hlast]
    omega

theorem clampOffset_congr {m n : Nat} (h : min m 4294967295 = min n 4294967295) :
    clampOffset m = clampOffset n := by
  rw [← UInt32.toNat_inj, clampOffset_toNat_eq, clampOffset_toNat_eq, h]

namespace Span

variable {n : Nat}

theorem shift_ofRange (n start stop : Nat) :
    (ofRange start stop).shift n = ofRange (start + n) (stop + n) := by
  unfold shift ofRange
  simp only [clampOffset_toNat_eq]
  congr 1 <;> apply clampOffset_congr <;> omega

theorem shift_start (n : Nat) (s : Span) :
    (s.shift n).start.toNat = min (s.start.toNat + n) 4294967295 := clampOffset_toNat_eq _

theorem shift_stop (n : Nat) (s : Span) :
    (s.shift n).stop.toNat = min (s.stop.toNat + n) 4294967295 := clampOffset_toNat_eq _

theorem eq_of_toNat {s t : Span} (hstart : s.start.toNat = t.start.toNat)
    (hstop : s.stop.toNat = t.stop.toNat) : s = t := by
  rw [UInt32.toNat_inj] at hstart hstop
  cases s
  cases t
  rw [mk.injEq]
  exact ⟨hstart, hstop⟩

theorem shift_zero (s : Span) : s.shift 0 = s := by
  have hstart := s.start.toNat_lt
  have hstop := s.stop.toNat_lt
  apply eq_of_toNat
  · rw [shift_start]
    omega
  · rw [shift_stop]
    omega

theorem shift_merge (n : Nat) (s t : Span) :
    (s.merge t).shift n = (s.shift n).merge (t.shift n) := by
  apply eq_of_toNat
  · rw [shift_start, merge_start, merge_start, shift_start, shift_start]
    omega
  · rw [shift_stop, merge_stop, merge_stop, shift_stop, shift_stop]
    omega

end Span

/-! ### Nodes -/

/-- A node behind `ids` nodes and `bytes` bytes. -/
def Node.shift (ids bytes : Nat) (node : Node) : Node :=
  ⟨node.kind.map (NodeId.shift ids), node.span.shift bytes⟩

/-- The nodes of one forest and behind them those of another one. -/
def Forest.followedBy (f : Forest) (bytes : Nat) (g : Forest) : Forest :=
  ⟨f.nodes ++ g.nodes.map (Node.shift f.size bytes)⟩

/-- Two programs one after the other, the second `bytes` bytes behind the start of the first. -/
def Program.followedBy (p : Program) (bytes : Nat) (q : Program) : Program where
  forest := p.forest.followedBy bytes q.forest
  statements := p.statements ++ q.statements.map fun t => ⟨t.root.shift p.forest.size, t.muted⟩

theorem NodeId.shift_zero (id : NodeId) : id.shift 0 = id := by
  have hlt := id.index.toNat_lt
  unfold shift
  split
  · rw [Nat.zero_add, UInt32.ofNat_toNat]
  · have hlast : id.index.toNat = absent.index.toNat := by
      have habsent : absent.index.toNat = 4294967295 := rfl
      omega
    rw [UInt32.toNat_inj] at hlast
    cases id
    cases hlast
    rfl

namespace Forest

variable {f g : Forest} {bytes : Nat} {id : NodeId}

theorem size_followedBy (f : Forest) (bytes : Nat) (g : Forest) :
    (f.followedBy bytes g).size = f.size + g.size := by
  simp [followedBy, size]

theorem empty_followedBy (f : Forest) : empty.followedBy 0 f = f := by
  have hnode : Node.shift 0 0 = id := by
    funext node
    have hshift : NodeId.shift 0 = id := funext NodeId.shift_zero
    rw [Node.shift, hshift, NodeKind.map_id, Span.shift_zero]
    rfl
  cases f
  simp [followedBy, empty, size, hnode]

theorem followedBy_empty (f : Forest) (bytes : Nat) : f.followedBy bytes empty = f := by
  simp [followedBy, empty]

theorem followedBy_push (f : Forest) (bytes : Nat) (g : Forest) (node : Node) :
    f.followedBy bytes (g.push node).2
      = ((f.followedBy bytes g).push (node.shift f.size bytes)).2 := by
  simp [followedBy, push]

theorem nextId_followedBy (h : f.size + g.size < 4294967295) :
    (f.followedBy bytes g).nextId = g.nextId.shift f.size := by
  have hindex : g.nextId.index.toNat = g.size := nextId_index (by omega)
  rw [NodeId.shift, hindex, if_pos h, nextId, size_followedBy,
    NodeId.ofPlace_eq (Nat.le_of_lt h)]

theorem get?_followedBy (h : f.size + g.size ≤ 4294967295) (bytes : Nat) (id : NodeId) :
    (f.followedBy bytes g).get? (id.shift f.size) = (g.get? id).map (Node.shift f.size bytes) := by
  have hlookup (i : Nat) : (f.followedBy bytes g).nodes[f.size + i]?
      = (g.nodes[i]?).map (Node.shift f.size bytes) := by
    have hsize : f.nodes.size = f.size := rfl
    rw [followedBy, ← hsize, Array.getElem?_append_right (Nat.le_add_right _ _),
      Nat.add_sub_cancel_left, Array.getElem?_map]
  unfold get?
  by_cases hlt : f.size + id.index.toNat < 4294967295
  · rw [NodeId.shift_index hlt, hlookup]
  · have hnone : g.nodes[id.index.toNat]? = none := by
      apply Array.getElem?_eq_none
      change g.size ≤ _
      omega
    have habsent : id.shift f.size = NodeId.absent := if_neg hlt
    have hsize := size_followedBy f bytes g
    rw [hnone, habsent, Option.map_none]
    exact get?_absent (by omega)

theorem kind?_followedBy (h : f.size + g.size ≤ 4294967295) (bytes : Nat) (id : NodeId) :
    (f.followedBy bytes g).kind? (id.shift f.size)
      = (g.kind? id).map (·.map (NodeId.shift f.size)) := by
  rw [kind?, get?_followedBy h, kind?, Option.map_map, Option.map_map]
  rfl

end Forest

section Trees

variable {f g : Forest} {root : NodeId}

theorem Forest.extends_followedBy (f : Forest) (bytes : Nat) (g : Forest) :
    f.Extends (f.followedBy bytes g) := by
  refine ⟨by rw [size_followedBy]; exact Nat.le_add_right _ _, fun i hi => ?_⟩
  exact Array.getElem?_append_left hi

/-- The trees of the first forest stay the same. -/
theorem Forest.unfold_followedBy_of_lt (hlinked : f.Linked) (h : f.size + g.size ≤ 4294967295)
    (bytes : Nat) (hroot : root.index.toNat < f.size) :
    (f.followedBy bytes g).unfold root = f.unfold root := by
  have hget (id' : NodeId) (hid : id'.Below f.size) :
      ((f.followedBy bytes g).get? id').map (fun node => (node.kind, node.span))
        = (f.get? id').map fun node => (node.kind.map id, node.span) := by
    rw [(f.extends_followedBy bytes g).get? (by rw [size_followedBy]; exact h) hid]
    simp only [NodeKind.map_id]
  have hsame := unfold_mapSpans (g := id) (σ := id) (ρ := id) hlinked (by omega) hget (.inr hroot)
    (k := root.index.toNat + 1) (.inr (Nat.lt_succ_self _))
  rwa [Tree.mapSpans_id, Tree.mapSpans_id] at hsame

/-- The trees of the second forest have their spans moved. -/
theorem Forest.unfold_followedBy (hlinked : g.Linked) (h : f.size + g.size ≤ 4294967295)
    (bytes : Nat) (hroot : root.index.toNat < g.size) :
    (f.followedBy bytes g).unfold (root.shift f.size)
      = (g.unfold root).mapSpans (Span.shift bytes) := by
  have hget (id' : NodeId) (_ : id'.Below g.size) :
      ((f.followedBy bytes g).get? (id'.shift f.size)).map (fun node => (node.kind, id node.span))
        = (g.get? id').map fun node =>
          (node.kind.map (NodeId.shift f.size), node.span.shift bytes) := by
    rw [get?_followedBy h, Option.map_map]
    rfl
  have hindex : (root.shift f.size).index.toNat = f.size + root.index.toNat :=
    NodeId.shift_index (by omega)
  have hmoved := unfold_mapSpans (σ := Span.shift bytes) (ρ := id) hlinked (by omega) hget
    (.inr hroot) (k := (root.shift f.size).index.toNat + 1) (.inr (by omega))
  rwa [Tree.mapSpans_id] at hmoved

end Trees

/-! ### Sites -/

/-- Where a text stands within another one: the bytes and nodes before it, the operator that was
offered last before it, and the text behind it. The part `cut` of what is left of the text is left of
it there, too. -/
structure Site (cut : List Char → List Char) where
  bytes : Nat
  before : Forest
  earlier : Option (List Char × Nat)
  tail : List Char

namespace Site

variable {cut : List Char → List Char} {E : Site cut} {r : Reader} {id : NodeId}

def cursor (E : Site cut) (c : Cursor) : Cursor := ⟨c.offset + E.bytes, cut c.rest ++ E.tail⟩

def forest (E : Site cut) (f : Forest) : Forest := E.before.followedBy E.bytes f

/-- The reader of the text where it stands: its nodes come behind those before, and what was offered
earlier still is, as long as the text offers nothing. -/
def reader (E : Site cut) (r : Reader) : Reader where
  cursor := E.cursor r.cursor
  forest := E.forest r.forest
  premise := (r.premise.map fun q => (q.1, q.2 + E.bytes)).or E.earlier
  afterControlFlow := r.afterControlFlow

/-- Whether the nodes can be numbered where the text stands. -/
def Fits (E : Site cut) (f : Forest) : Prop := E.before.size + f.size ≤ 4294967295

theorem Fits.mono {f f₁ : Forest} (h : E.Fits f₁) (hle : f.size ≤ f₁.size) : E.Fits f :=
  Nat.le_trans (Nat.add_le_add_left hle _) h

theorem Fits.nextId {f : Forest} {node : Node} (h : E.Fits (f.push node).2) :
    (E.forest f).nextId = f.nextId.shift E.before.size := by
  unfold Fits at h
  rw [Forest.size_push] at h
  exact Forest.nextId_followedBy (by omega)

theorem spanFrom_cursor (c : Cursor) (start : Nat) :
    (E.cursor c).spanFrom (start + E.bytes) = (c.spanFrom start).shift E.bytes :=
  (Span.shift_ofRange E.bytes start c.offset).symm

theorem reader_movedTo (r : Reader) (c : Cursor) :
    E.reader (r.movedTo c) = (E.reader r).movedTo (E.cursor c) := rfl

theorem reader_withNode (r : Reader) (kind : NodeKind NodeId) (span : Span) :
    E.reader (r.withNode kind span)
      = (E.reader r).withNode (kind.map (NodeId.shift E.before.size)) (span.shift E.bytes) := by
  have hpush := Forest.followedBy_push E.before E.bytes r.forest ⟨kind, span⟩
  unfold reader Reader.withNode forest
  rw [hpush]
  rfl

theorem reader_afterOperator (r : Reader) (kind : NodeKind NodeId) (span : Span) :
    E.reader (r.afterOperator kind span)
      = (E.reader r).afterOperator (Numbered.shift E.before.size kind) (span.shift E.bytes) := by
  have hnode : E.reader (r.withNode kind span)
      = (E.reader r).withNode (Numbered.shift E.before.size kind) (span.shift E.bytes) :=
    reader_withNode r kind span
  unfold Reader.afterOperator
  rw [← hnode]
  rfl

theorem reader_afterOperand (hfits : E.Fits r.forest) (form : Form) (id : NodeId) :
    E.reader (r.afterOperand form id)
      = (E.reader r).afterOperand form (id.shift E.before.size) := by
  have hflow : ((E.forest r.forest).kind? (id.shift E.before.size)).any (·.isControlFlow)
      = (r.forest.kind? id).any (·.isControlFlow) := by
    rw [forest, Forest.kind?_followedBy hfits]
    cases r.forest.kind? id with
    | none => rfl
    | some k => exact NodeKind.isControlFlow_map _ k
  unfold reader Reader.afterOperand
  simp only [hflow, Reader.mk.injEq, true_and, and_true]
  cases form.premise with
  | none => rfl
  | some symbol => rfl

/-- The span of a node of the text moves with it. -/
theorem spanOf_reader (hfits : E.Fits r.forest) (hid : id.index.toNat < r.forest.size) :
    ((E.reader r).forest.get? (id.shift E.before.size)).elim Span.none (·.span)
      = ((r.forest.get? id).elim Span.none (·.span)).shift E.bytes := by
  obtain ⟨node, hnode⟩ : ∃ node, r.forest.get? id = some node :=
    ⟨_, Array.getElem?_eq_getElem hid⟩
  change ((E.before.followedBy E.bytes r.forest).get? _).elim _ _ = _
  rw [Forest.get?_followedBy hfits, hnode]
  rfl

/-- What is understood behind an operand is the same where the text stands. -/
theorem premiseAt_reader {g : Grammar} {flags : Flags} {start : Nat}
    (hform : g.findForm? (E.reader r).cursor.rest flags = g.findForm? r.cursor.rest flags)
    (hstale : ∀ q ∈ E.earlier, q.2 < start + E.bytes) (spaced : Bool) :
    g.premiseAt (E.reader r) flags (start + E.bytes) spaced
      = g.premiseAt r flags start spaced := by
  unfold Grammar.premiseAt
  rw [hform]
  cases hoffer : r.premise with
  | some q =>
      have hoffer' : (E.reader r).premise = some (q.1, q.2 + E.bytes) := by
        rw [reader, hoffer]
        rfl
      have hended : (q.2 + E.bytes == start + E.bytes) = (q.2 == start) := by
        rw [Bool.eq_iff_iff, beq_iff_eq, beq_iff_eq]
        omega
      simp only [hoffer', hended]
  | none =>
      have hoffer' : (E.reader r).premise = E.earlier := by
        rw [reader, hoffer]
        rfl
      rw [hoffer']
      cases hearlier : E.earlier with
      | none => rfl
      | some q =>
          have hended : (q.2 == start + E.bytes) = false :=
            beq_false_of_ne (Nat.ne_of_lt (hstale q hearlier))
          simp only [hended, Bool.false_and, Bool.false_eq_true, if_false]

end Site

/-! ### Steps that are followed -/

/-- What every step does to a reader. -/
structure Reader.Leads (r r₁ : Reader) : Prop where
  reaches : r.cursor.Reaches r₁.cursor
  size_le : r.forest.size ≤ r₁.forest.size
  offer : ∀ q ∈ r₁.premise, q ∈ r.premise
    ∨ q.2 ≤ r₁.cursor.offset + byteCount r₁.cursor.rest

namespace Reader.Leads

variable {r r₁ r₂ : Reader} {c : Cursor}

theorem refl (r : Reader) : r.Leads r := ⟨.refl _, Nat.le_refl _, fun _ => .inl⟩

theorem trans (h : r.Leads r₁) (h' : r₁.Leads r₂) : r.Leads r₂ where
  reaches := h.reaches.trans h'.reaches
  size_le := Nat.le_trans h.size_le h'.size_le
  offer q hq := by
    rcases h'.offer q hq with hq | hle
    · refine (h.offer q hq).imp_right fun hle => ?_
      obtain ⟨w, hrest, hoffset⟩ := h'.reaches
      have hbytes := congrArg byteCount hrest
      rw [byteCount_append] at hbytes
      omega
    · exact .inr hle

theorem movedTo (h : r.cursor.Reaches c) : r.Leads (r.movedTo c) :=
  ⟨h, Nat.le_refl _, fun _ => .inl⟩

theorem withNode (r : Reader) (kind : NodeKind NodeId) (span : Span) :
    r.Leads (r.withNode kind span) := by
  refine ⟨.refl _, ?_, fun _ => .inl⟩
  rw [Reader.withNode, Forest.size_push]
  exact Nat.le_succ _

end Reader.Leads

theorem Grammar.Skips.reaches {g : Grammar} {flags : Flags} {b : Bool} {c d : Cursor}
    (h : g.Skips flags b c d) : c.Reaches d := by
  induction h with
  | stop _ => exact .refl _
  | pass _ _ _ ih => exact (Cursor.reaches_advance _ _).trans ih

namespace Site

variable {cut : List Char → List Char} {E : Site cut} {α β : Type} [Numbered α] [Numbered β]
  {I J K : Reader → Prop} {P P' Q Q' R : Cursor → Prop} {f f' : Reading α} {g g' : α → Reading β}
  {r : Reader}

/-- Begun where `I` holds of the reader of the text, the first step ends where `J` does. The second
step does where the text stands what the first does in the text, if `Q` holds where the first one
ends. Then `P` holds where it begins. -/
def Follows (E : Site cut) (I J : Reader → Prop) (P Q : Cursor → Prop) (f f' : Reading α)
    (r : Reader) : Prop :=
  I r → ∀ a r₁, f r = .ok (a, r₁) → r.Leads r₁ ∧ J r₁
    ∧ (Q r₁.cursor → P r.cursor ∧ (E.Fits r₁.forest →
        f' (E.reader r) = .ok (Numbered.shift E.before.size a, E.reader r₁)))

namespace Follows

theorem bind (hf : E.Follows I J P Q f f' r) (hg : ∀ a r₁, f r = .ok (a, r₁) →
      E.Follows J K Q R (g a) (g' (Numbered.shift E.before.size a)) r₁) :
    E.Follows I K P R (f >>= g) (f' >>= g') r := by
  intro hI b r₂ hrun
  obtain ⟨a, r₁, hfr, hgr⟩ := bind_eq_ok_iff.mp hrun
  obtain ⟨hleads, hJ, hfollows⟩ := hf hI a r₁ hfr
  obtain ⟨hleads', hK, hfollows'⟩ := hg a r₁ hfr hJ b r₂ hgr
  refine ⟨hleads.trans hleads', hK, fun hR => ?_⟩
  obtain ⟨hQ, hgr'⟩ := hfollows' hR
  obtain ⟨hP, hfr'⟩ := hfollows hQ
  refine ⟨hP, fun hfits => ?_⟩
  rw [bind_ok (hfr' (hfits.mono hleads'.size_le)), hgr' hfits]

/-- What is known of the place where a step begins need not come from the step. -/
theorem start (h : E.Follows I J P Q f f' r) (hP : P r.cursor → P' r.cursor) :
    E.Follows I J P' Q f f' r := by
  intro hI a r₁ hrun
  obtain ⟨hleads, hJ, hfollows⟩ := h hI a r₁ hrun
  exact ⟨hleads, hJ, fun hQ => (hfollows hQ).imp_left hP⟩

theorem weaken (h : E.Follows I J P Q f f' r) (hQ : ∀ c, Q' c → Q c) :
    E.Follows I J P Q' f f' r := by
  intro hI a r₁ hrun
  obtain ⟨hleads, hJ, hfollows⟩ := h hI a r₁ hrun
  exact ⟨hleads, hJ, fun hQ' => hfollows (hQ _ hQ')⟩

theorem pure (a : α) : E.Follows I I Q Q (pure a) (pure (Numbered.shift E.before.size a)) r := by
  intro hI b r₁ hrun
  obtain ⟨rfl, rfl⟩ := pure_eq_ok_iff.mp hrun
  exact ⟨.refl _, hI, fun hQ => ⟨hQ, fun _ => rfl⟩⟩

theorem of_fails (h : ∀ p, f r ≠ .ok p) : E.Follows I J P Q f f' r :=
  fun _ _ _ hrun => absurd hrun (h _)

theorem within {construct : Construct} (h : E.Follows I J P Q f f' r) :
    E.Follows I J P Q (within construct f) (within construct f') r := by
  intro hI a r₁ hrun
  obtain ⟨hleads, hJ, hfollows⟩ := h hI a r₁ (within_eq_ok_iff.mp hrun)
  refine ⟨hleads, hJ, fun hQ => ?_⟩
  obtain ⟨hP, hrun'⟩ := hfollows hQ
  exact ⟨hP, fun hfits => within_eq_ok_iff.mpr (hrun' hfits)⟩

/-- A loop has at least as many rounds where the text stands. -/
theorem rounds_bind {g g' : Nat → Reading β}
    (hlength : r.cursor.rest.length ≤ (E.cursor r.cursor).rest.length)
    (hg : ∀ n n', n ≤ n' → E.Follows I J P Q (g n) (g' n') r) :
    E.Follows I J P Q (Surroundings.rounds >>= g) (Surroundings.rounds >>= g') r :=
  hg _ _ (Nat.succ_le_succ hlength)

theorem cursor_bind {g g' : Cursor → Reading β}
    (h : E.Follows I J P Q (g r.cursor) (g' (E.cursor r.cursor)) r) :
    E.Follows I J P Q (Reading.cursor >>= g) (Reading.cursor >>= g') r := h

theorem offset_bind {g g' : Nat → Reading β}
    (h : E.Follows I J P Q (g r.cursor.offset) (g' (r.cursor.offset + E.bytes)) r) :
    E.Follows I J P Q (offset >>= g) (offset >>= g') r := h

theorem peek_bind {g g' : Option Char → Reading β}
    (hpeek : P r.cursor → (E.cursor r.cursor).peek? = r.cursor.peek?)
    (h : E.Follows I J P Q (g r.cursor.peek?) (g' r.cursor.peek?) r) :
    E.Follows I J P Q (peek? >>= g) (peek? >>= g') r := by
  intro hI a r₁ hrun
  obtain ⟨hleads, hJ, hfollows⟩ := h hI a r₁ hrun
  refine ⟨hleads, hJ, fun hQ => ?_⟩
  obtain ⟨hP, hrun'⟩ := hfollows hQ
  refine ⟨hP, fun hfits => ?_⟩
  rw [peek?_bind]
  change g' (E.cursor r.cursor).peek? _ = _
  rw [hpeek hP]
  exact hrun' hfits

/-- A step that first passes text. -/
theorem moved {c : Cursor} {f f' g g' : Reading β} (h : E.Follows J K P Q g g' (r.movedTo c))
    (hreaches : r.cursor.Reaches c) (hJ : I r → J (r.movedTo c)) (hf : f r = g (r.movedTo c))
    (hf' : P c → P' r.cursor ∧ f' (E.reader r) = g' (E.reader (r.movedTo c))) :
    E.Follows I K P' Q f f' r := by
  intro hI a r₁ hrun
  rw [hf] at hrun
  obtain ⟨hleads, hK, hfollows⟩ := h (hJ hI) a r₁ hrun
  refine ⟨(Reader.Leads.movedTo hreaches).trans hleads, hK, fun hQ => ?_⟩
  obtain ⟨hP, hrun'⟩ := hfollows hQ
  obtain ⟨hP', hsame⟩ := hf' hP
  refine ⟨hP', fun hfits => ?_⟩
  rw [hsame]
  exact hrun' hfits

theorem next_bind {f f' : Reading β} (h : E.Follows J K P Q f f' (r.movedTo r.cursor.next))
    (hJ : I r → J (r.movedTo r.cursor.next)) (hP : P r.cursor.next →
      P' r.cursor ∧ E.cursor r.cursor.next = (E.cursor r.cursor).next) :
    E.Follows I K P' Q (next >>= fun _ => f) (next >>= fun _ => f') r := by
  refine h.moved r.cursor.reaches_next hJ rfl fun hhere => ?_
  obtain ⟨hP', hnext⟩ := hP hhere
  refine ⟨hP', ?_⟩
  rw [reader_movedTo, hnext]
  rfl

theorem advance_bind {n : Nat} {f f' : Reading β}
    (h : E.Follows J K P Q f f' (r.movedTo (r.cursor.advance n)))
    (hJ : I r → J (r.movedTo (r.cursor.advance n))) (hP : P (r.cursor.advance n) →
      P' r.cursor ∧ E.cursor (r.cursor.advance n) = (E.cursor r.cursor).advance n) :
    E.Follows I K P' Q (advance n >>= fun _ => f) (advance n >>= fun _ => f') r := by
  refine h.moved (r.cursor.reaches_advance n) hJ rfl fun hhere => ?_
  obtain ⟨hP', hadvance⟩ := hP hhere
  refine ⟨hP', ?_⟩
  rw [reader_movedTo, hadvance]
  rfl

/-- What is done when a character comes next, and passed, or does not. -/
theorem eat_bind {x : Char} {g g' : Bool → Reading β}
    (hpeek : P r.cursor → (E.cursor r.cursor).peek? = r.cursor.peek?)
    (hpass : r.cursor.peek? = some x →
      E.Follows I J P Q (next >>= fun _ => g true) (next >>= fun _ => g' true) r)
    (hstay : r.cursor.peek? ≠ some x → E.Follows I J P Q (g false) (g' false) r) :
    E.Follows I J P Q (eat x >>= g) (eat x >>= g') r := by
  intro hI a r₁ hrun
  rw [Reading.eat_bind] at hrun
  have hboth {f f' : Reading β} (h : E.Follows I J P Q f f' r) (hfr : f r = .ok (a, r₁))
      (hf' : (E.cursor r.cursor).peek? = r.cursor.peek? →
        (eat x >>= g') (E.reader r) = f' (E.reader r)) :
      r.Leads r₁ ∧ J r₁ ∧ (Q r₁.cursor → P r.cursor ∧ (E.Fits r₁.forest →
        (eat x >>= g') (E.reader r) = .ok (Numbered.shift E.before.size a, E.reader r₁))) := by
    obtain ⟨hleads, hJ, hfollows⟩ := h hI a r₁ hfr
    refine ⟨hleads, hJ, fun hQ => ?_⟩
    obtain ⟨hP, hrun'⟩ := hfollows hQ
    refine ⟨hP, fun hfits => ?_⟩
    rw [hf' (hpeek hP)]
    exact hrun' hfits
  have hhere : (E.reader r).cursor = E.cursor r.cursor := rfl
  split at hrun
  · rename_i hx
    refine hboth (hpass hx) hrun fun hsame => ?_
    rw [Reading.eat_bind, hhere, hsame, if_pos hx]
    rfl
  · rename_i hx
    refine hboth (hstay hx) hrun fun hsame => ?_
    rw [Reading.eat_bind, hhere, hsame, if_neg hx]

/-- A step that depends on whether the operand before it was control flow. -/
theorem flow_bind {f f' g g' : Reading β} (hf : E.Follows I J P Q f f' r)
    (hg : E.Follows I J P Q g g' r) :
    E.Follows I J P Q (get >>= fun r => if r.afterControlFlow then f else g)
      (get >>= fun r => if r.afterControlFlow then f' else g') r := by
  intro hI a r₁ hrun
  rw [get_bind, ite_run] at hrun ⊢
  change _ ∧ _ ∧ (_ → _ ∧ (_ → (if r.afterControlFlow = true then _ else _) = _))
  split at hrun
  · rename_i hflow
    rw [if_pos hflow]
    exact hf hI a r₁ hrun
  · rename_i hflow
    rw [if_neg hflow]
    exact hg hI a r₁ hrun

theorem allocFrom (hI : ∀ kind span, I r → I (r.withNode kind span)) (kind : NodeKind NodeId)
    (start : Nat) :
    E.Follows I I Q Q (Reading.allocFrom kind start)
      (Reading.allocFrom (Numbered.shift E.before.size kind) (start + E.bytes)) r := by
  intro hr id r₁ hrun
  obtain ⟨rfl, rfl⟩ := allocFrom_eq_ok_iff.mp hrun
  refine ⟨.withNode _ _ _, hI _ _ hr, fun hQ => ⟨hQ, fun hfits => ?_⟩⟩
  have hspan := spanFrom_cursor (E := E) r.cursor start
  refine allocFrom_eq_ok_iff.mpr ⟨(Fits.nextId hfits).symm, ?_⟩
  rw [reader_withNode, ← hspan]
  rfl

end Follows

end Site

end MatrixScript
