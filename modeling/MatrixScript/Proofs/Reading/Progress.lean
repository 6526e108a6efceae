import MatrixScript.Proofs.Reading.Trees
import MatrixScript.Proofs.Reading.Words

/-!
# What reading leaves behind

Reading an operand lets the forest grow by linked nodes, at one of which the tree of the operand
stands from then on. What an operand offers to whatever stands right behind it is spent as soon as
the cursor moves on.
-/

namespace MatrixScript

open Reading

/-- What reading an operand leaves behind: a forest that has grown, with the tree in it. -/
structure Reader.Behind (r r₁ : Reader) (id : NodeId) (t : Tree) : Prop where
  linked : r₁.forest.Linked
  grown : r.forest.Extends r₁.forest
  shown : r₁.forest.Shows id t

namespace Reader

variable {r r₁ : Reader} {id : NodeId} {t : Tree}

theorem linked_ofText (text : List Char) : (Reader.ofText text).forest.Linked :=
  fun i node h => by simp [ofText, Forest.empty] at h

theorem Behind.since {r₀ : Reader} (h : r.Behind r₁ id t) (hgrown : r₀.forest.Extends r.forest) :
    r₀.Behind r₁ id t :=
  ⟨h.linked, hgrown.trans h.grown, h.shown⟩

/-- A new node shows the tree that is made of the trees below its children. -/
theorem behind_withNode (hlinked : r₁.forest.Linked) (hgrown : r.forest.Extends r₁.forest)
    {kind : NodeKind NodeId} (hkind : ∀ id ∈ kind.children, id.Below r₁.forest.size)
    (hroom : r₁.forest.size < 4294967295) {k : NodeKind Tree}
    (hk : kind.map (fun id => (r₁.forest.unfold id).bare) = k) (span : Span) :
    r.Behind (r₁.withNode kind span) r₁.forest.nextId (.of k) := by
  subst hk
  exact ⟨hlinked.push hkind, hgrown.trans (Forest.extends_push _ _),
    Forest.shows_push hlinked hroom hkind span⟩

/-- An operator between two operands shows the tree that joins theirs. -/
theorem Behind.join {left : NodeId} {l : Tree} (h : r.Behind r₁ id t)
    (hleft : r₁.forest.Shows left l) (hroom : r₁.forest.size < 4294967295)
    {kind : NodeKind NodeId} (hchildren : kind.children = [left, id]) {k : NodeKind Tree}
    (hk : kind.map (fun id => (r₁.forest.unfold id).bare) = k) (span : Span) :
    r.Behind (r₁.afterOperator kind span) r₁.forest.nextId (.of k) := by
  have hbelow : ∀ child ∈ kind.children, child.Below r₁.forest.size := by
    rw [hchildren]
    intro child hchild
    rcases List.mem_cons.mp hchild with rfl | hchild
    · exact hleft.1
    · exact List.mem_singleton.mp hchild ▸ h.shown.1
  have hnode := behind_withNode h.linked h.grown hbelow hroom hk span
  exact ⟨hnode.linked, hnode.grown, hnode.shown⟩

theorem size_withNode (r : Reader) (kind : NodeKind NodeId) (span : Span) :
    (r.withNode kind span).forest.size = r.forest.size + 1 :=
  Forest.size_push _

theorem size_afterOperator (r : Reader) (kind : NodeKind NodeId) (span : Span) :
    (r.afterOperator kind span).forest.size = r.forest.size + 1 :=
  Forest.size_push _

end Reader

namespace Grammar

/-- The text is read as these statements, given by their trees and marks for muted ones. -/
def Reads (text : List Char) (trees : List (Tree × Bool)) : Prop :=
  ∃ program, standard.parse text = .ok program
    ∧ program.statements.map (fun t => ((program.forest.unfold t.root).bare, t.muted)) = trees

theorem parse_of_statements {g : Grammar} {text : List Char} {ts : List Statement} {r₁ : Reader}
    (h : (g.top text).statements none (.ofText text) = .ok (ts, r₁)) :
    g.parse text = .ok ⟨r₁.forest, ts⟩ := by
  unfold parse StateT.run
  rw [h]
  rfl

theorem exists_of_parse {text : List Char} {p : Program} (h : standard.parse text = .ok p) :
    ∃ ts r₁, (standard.top text).statements none (.ofText text) = .ok (ts, r₁)
      ∧ p = ⟨r₁.forest, ts⟩ := by
  unfold parse StateT.run at h
  cases hrun : (standard.top text).statements none (.ofText text) with
  | error e =>
      rw [hrun] at h
      cases h
  | ok result =>
      rw [hrun] at h
      cases h
      exact ⟨result.1, result.2, rfl, rfl⟩

/-- A name that is read as an operand leaves one node behind. -/
theorem identifier_behind {g : Grammar} {s : Surroundings} {r₀ r : Reader} {b : Bool}
    {word d : List Char}
    (hform : g.findForm? r.cursor.rest s.mode.flags = some Form.identifier) (hword : IsName word)
    (hd : EndsWord d) (hskip : s.skip r₀ = .ok (b, r)) (hlinked : r.forest.Linked)
    (hrest : r.cursor.rest = word ++ d) (hroom : r.forest.size < 4294967295) :
    ∃ r₁, g.operand s r₀ = .ok (r.forest.nextId, r₁)
      ∧ r.Behind r₁ r.forest.nextId (.of (.name (String.ofList word)))
      ∧ r₁.forest.kind? r.forest.nextId = some (.name (String.ofList word))
      ∧ r₁.cursor = ⟨r.cursor.offset + byteCount word, d⟩ ∧ r₁.premise = r.premise
      ∧ r₁.forest.size = r.forest.size + 1 ∧ r₁.afterControlFlow = false := by
  obtain ⟨span, hoperand⟩ := name_operand hform hword hd hskip hrest
  have hkind := Forest.kind?_push hroom ⟨.name (String.ofList word), span⟩
  let kind : NodeKind NodeId := .name (String.ofList word)
  have hleaf : ∀ id ∈ kind.children, id.Below r.forest.size := List.forall_mem_nil _
  have hbehind := Reader.behind_withNode (r := r) hlinked (.refl _) hleaf hroom
    (k := .name (String.ofList word)) rfl span
  have hflow := congrArg (Option.any fun k : NodeKind NodeId => k.isControlFlow) hkind
  exact ⟨_, hoperand, ⟨hbehind.linked, hbehind.grown, hbehind.shown⟩, hkind, rfl, rfl,
    Forest.size_push _, hflow⟩

/-- In the language every name is read so. -/
theorem name_behind {s : Surroundings} {r₀ r : Reader} {b : Bool} {word d : List Char}
    (hword : IsName word) (hd : EndsWord d) (hskip : s.skip r₀ = .ok (b, r))
    (hlinked : r.forest.Linked) (hrest : r.cursor.rest = word ++ d)
    (hroom : r.forest.size < 4294967295) :
    ∃ r₁, standard.operand s r₀ = .ok (r.forest.nextId, r₁)
      ∧ r.Behind r₁ r.forest.nextId (.of (.name (String.ofList word)))
      ∧ r₁.forest.kind? r.forest.nextId = some (.name (String.ofList word))
      ∧ r₁.cursor = ⟨r.cursor.offset + byteCount word, d⟩ ∧ r₁.premise = r.premise
      ∧ r₁.forest.size = r.forest.size + 1 ∧ r₁.afterControlFlow = false :=
  identifier_behind (hrest ▸ findForm?_name hword hd _) hword hd hskip hlinked hrest hroom

end Grammar

end MatrixScript
