import MatrixScript.Proofs.Crowds
import MatrixScript.Proofs.Layout.Expressions
import MatrixScript.Proofs.Layout.Links
import Mathlib.Control.Monad.Basic

/-!
# The layout of programs

What is known of every step of reading holds of the reading of a whole text. The nodes of a program
have spans in the text, the children of a node stand inside it in their order, each node has at most
one parent, and whatever is assigned to can be assigned to. A failure is reported about a place in
the text.

Numbers of nodes are kept in 32 bits, so the nodes of a text can be told apart as long as there are
fewer than the numbers. A text has at most two nodes for each of its characters.
-/

namespace MatrixScript

/-- Spans that follow one another. -/
def InTurn (spans : List Span) : Prop :=
  spans.Pairwise fun s t => s.stop.toNat ≤ t.start.toNat

namespace Forest

variable {f : Forest} {node : Node} {i : Nat} {target : NodeId} {op : Option BinaryOp}

/-- The children of a node are there, inside its span, and follow one another. -/
structure Encloses (f : Forest) (node : Node) : Prop where
  inside : ∀ id ∈ node.kind.links, ∃ child, f.get? id = some child
    ∧ node.span.start.toNat ≤ child.span.start.toNat ∧ child.span.stop.toNat ≤ node.span.stop.toNat
  inTurn : InTurn (node.kind.links.map f.spanOf)

theorem InOrder.encloses (h : f.InOrder i node) (hi : i < f.size) : f.Encloses node := by
  refine ⟨fun id hid => ?_, h.lined.pairwise⟩
  obtain ⟨child, hchild⟩ := exists_of_lt_size (Nat.lt_trans (mem_links_lt h.slots hid) hi)
  have hspan : f.spanOf id = child.span := by rw [spanOf, hchild, Option.elim_some]
  have hinside := h.lined.inside (List.mem_map_of_mem hid)
  rw [hspan] at hinside
  exact ⟨child, hchild, hinside⟩

/-- A name, an index expression on a name, or, for plain assignment, a row of names. -/
def LegalTarget (f : Forest) (op : Option BinaryOp) (target : NodeId) : Prop :=
  (∃ name, f.kind? target = some (.name name))
    ∨ (∃ callee args name, f.kind? target = some (.call callee args)
        ∧ f.kind? callee = some (.name name))
    ∨ op = none ∧ ∃ row, f.kind? target = some (.matrix [row]) ∧ row ≠ []
        ∧ ∀ id ∈ row, ∃ name, f.kind? id = some (.name name)

theorem exists_of_isName {id : NodeId} (h : Operator.isName f id = true) :
    ∃ name, f.kind? id = some (.name name) := by
  unfold Operator.isName at h
  split at h
  · rename_i name hkind
    exact ⟨name, hkind⟩
  · cases h

theorem legalTarget_of_isTarget {k : NodeKind NodeId} (hkind : f.kind? target = some k)
    (h : Operator.isTarget f op.isSome k = true) : f.LegalTarget op target := by
  unfold Operator.isTarget at h
  split at h
  · exact .inl ⟨_, hkind⟩
  · rename_i callee args
    obtain ⟨name, hname⟩ := exists_of_isName h
    exact .inr (.inl ⟨callee, args, name, hkind, hname⟩)
  · rename_i row
    simp only [Bool.and_eq_true, Bool.not_eq_true', Option.isSome_eq_false_iff, List.all_eq_true,
      Option.isNone_iff_eq_none, List.isEmpty_eq_false_iff] at h
    exact .inr (.inr ⟨h.1.1, row, hkind, h.1.2, fun id hid => exists_of_isName (h.2 id hid)⟩)
  · cases h

end Forest

namespace Grammar

variable {text : List Char}

/-- Reading a whole text gathers the roots of its statements. -/
theorem parse_gathers (hshort : byteCount text < 4294967296) :
    match standard.parse text with
    | .ok program => ∃ r, r.forest = program.forest
        ∧ Gathered text (.ofText text) r (program.statements.map (·.root))
    | .error e => e.span.Within text := by
  have hin : (Reader.ofText text).In text :=
    ⟨.refl _, fun node hnode => absurd hnode (Array.not_mem_empty node), nofun⟩
  have h := Surroundings.statements_gathers (standard_sound hshort .statement (text.length + 1))
    hshort none _ (.refl hin)
  change Outcome text _ ((standard.top text).statements none (.ofText text)) at h
  unfold parse StateT.run
  cases hrun : (standard.top text).statements none (.ofText text) with
  | ok p =>
      rw [hrun] at h
      exact ⟨p.2, rfl, h⟩
  | error e =>
      rw [hrun] at h
      exact h

/-- A text has at most two nodes for each of its characters. -/
theorem size_le_of_gathered {r : Reader} {ids : List NodeId}
    (h : Gathered text (.ofText text) r ids) : r.forest.size ≤ 2 * text.length := by
  have hpaid := h.paid
  have hstart : (Reader.ofText text).forest.size + 2 * (Reader.ofText text).cursor.rest.length
    = 2 * text.length := Nat.zero_add _
  omega

/-- The nodes of a program stand in its text. -/
theorem span_of_parse (hshort : byteCount text < 4294967296) {program : Program}
    (hparse : standard.parse text = .ok program) {node : Node} (hnode : node ∈ program.forest.nodes) :
    node.span.start.toNat < node.span.stop.toNat ∧ node.span.stop.toNat ≤ byteCount text := by
  have hgathers := parse_gathers hshort
  rw [hparse] at hgathers
  obtain ⟨r, hforest, hgathered⟩ := hgathers
  rw [← hforest] at hnode
  have hproper := hgathered.inText.nodes node hnode
  exact ⟨hproper.nonempty, hproper.within.stop.le⟩

/-- Every span is about a piece of the text. -/
theorem parse_spans (hshort : byteCount text < 4294967296) :
    (∀ program, standard.parse text = .ok program →
      (∀ node ∈ program.forest.nodes, node.span.Within text
          ∧ node.span.start.toNat < node.span.stop.toNat
          ∧ node.span.stop.toNat ≤ byteCount text)
        ∧ program.forest.size ≤ 2 * text.length
        ∧ (program.forest.size ≤ 4294967295 →
          (∀ node ∈ program.forest.nodes, program.forest.Encloses node)
            ∧ InTurn (program.statements.map fun t => program.forest.spanOf t.root)))
      ∧ ∀ e, standard.parse text = .error e →
        e.span.Within text ∧ e.span.stop.toNat ≤ byteCount text := by
  have hparse := parse_gathers hshort
  constructor
  · intro program hok
    rw [hok] at hparse
    obtain ⟨r, hforest, hgathered⟩ := hparse
    rw [← hforest]
    refine ⟨fun node hnode => ?_, size_le_of_gathered hgathered, fun hroom => ⟨fun node hnode => ?_, ?_⟩⟩
    · have hproper := hgathered.inText.nodes node hnode
      exact ⟨hproper.within, hproper.nonempty, hproper.within.stop.le⟩
    · obtain ⟨i, hi⟩ := Array.mem_iff_getElem?.mp hnode
      have hinOrder := (hgathered.arranged hroom).inOrder i node (Nat.zero_le i) hi
      exact hinOrder.encloses (Forest.lt_size hi)
    · have hlined := (hgathered.arranged hroom).lined
      rw [List.map_map] at hlined
      exact hlined.pairwise
  · intro e herror
    rw [herror] at hparse
    exact ⟨hparse, hparse.stop.le⟩

/-- What is read from `[a, b] = f(c)`. -/
def rowProgram : Program where
  forest := ⟨#[⟨.name "a", ⟨1, 2⟩⟩, ⟨.name "b", ⟨4, 5⟩⟩, ⟨.matrix [[⟨0⟩, ⟨1⟩]], ⟨0, 6⟩⟩,
    ⟨.name "f", ⟨9, 10⟩⟩, ⟨.name "c", ⟨11, 12⟩⟩, ⟨.call ⟨3⟩ [⟨4⟩], ⟨9, 13⟩⟩,
    ⟨.assign ⟨2⟩ none ⟨5⟩, ⟨0, 13⟩⟩]⟩
  statements := [⟨⟨6⟩, false⟩]

theorem parse_row : standard.parse "[a, b] = f(c)".toList = .ok rowProgram := by
  decide +kernel

/-- The names of a row are laid out inside it, and a parenthesis that is left open is reported. -/
theorem parse_spans_row : byteCount "[a, b] = f(c)".toList < 4294967296
    ∧ (∀ node ∈ rowProgram.forest.nodes, rowProgram.forest.Encloses node)
    ∧ ∃ e, standard.parse "f(".toList = .error e ∧ e.span.Within "f(".toList := by
  have hshort : byteCount "[a, b] = f(c)".toList < 4294967296 := by decide
  obtain ⟨-, -, hlaid⟩ := (parse_spans hshort).1 rowProgram parse_row
  have hopen : standard.parse "f(".toList
      = .error ⟨.expectedExpression none, ⟨2, 2⟩, some .arguments⟩ := by decide +kernel
  have hspan := (parse_spans (by decide)).2 _ hopen
  exact ⟨hshort, (hlaid (by decide)).1, _, hopen, hspan.1⟩

/-- Where there are more nodes than numbers, the roots of two statements may have one number, and
then their spans are the same. -/
theorem not_parse_spans : ¬∀ (text : List Char) (program : Program), byteCount text < 4294967296 →
    standard.parse text = .ok program →
      (∀ node ∈ program.forest.nodes, node.span.start.toNat < node.span.stop.toNat)
        ∧ InTurn (program.statements.map fun t => program.forest.spanOf t.root) := by
  intro h
  obtain ⟨f, hparse, -⟩ := Crowd.parse_guarded_lines (Crowd.bulk + 1) 1
  have hshort : byteCount (Crowd.guarded (Crowd.bulk + 1) ++ '\n' :: Crowd.guarded 1)
      < 4294967296 := by
    rw [Crowd.byteCount_guarded_lines]
    decide
  obtain ⟨hnonempty, hinTurn⟩ := h _ _ hshort hparse
  let root : NodeId := ⟨4294967294⟩
  have hroot := (wellLinked_of_parse hparse).2 ⟨root, false⟩ (.head _)
  obtain ⟨node, hnode⟩ := Forest.exists_of_lt_size (of_decide_eq_true hroot)
  have hspan : f.spanOf root = node.span := by rw [Forest.spanOf, hnode, Option.elim_some]
  have hroots : (f.spanOf root).stop.toNat ≤ (f.spanOf root).start.toNat :=
    (List.pairwise_cons.mp hinTurn).1 _ (.head _)
  rw [hspan] at hroots
  exact Nat.not_le.mpr (hnonempty node (Array.mem_of_getElem? hnode)) hroots

/-- The statements of a program are among its nodes, and it assigns only to what can be assigned to.
As long as each node has a number of its own, links lead to earlier nodes, and each node has at most
one parent. -/
theorem parse_forest (hshort : byteCount text < 4294967296) {program : Program}
    (hparse : standard.parse text = .ok program) :
    (∀ node ∈ program.forest.nodes, ∀ target op value, node.kind = .assign target op value →
        program.forest.LegalTarget op target)
      ∧ program.forest.size ≤ 2 * text.length
      ∧ (∀ t ∈ program.statements, program.forest.contains t.root = true)
      ∧ (program.forest.size ≤ 4294967295 →
        program.forest.brokenLink? = none
          ∧ (program.forest.nodes.toList.flatMap (·.kind.links)
            ++ program.statements.map (·.root)).Nodup) := by
  obtain ⟨hlinks, hroots⟩ := wellLinked_of_parse hparse
  have hgathers := parse_gathers hshort
  rw [hparse] at hgathers
  obtain ⟨r, hforest, hgathered⟩ := hgathers
  refine ⟨fun node hnode target op value hkind => ?_, hforest ▸ size_le_of_gathered hgathered,
    hroots, fun hroom => ⟨hlinks.links (Nat.le_succ_of_le hroom), ?_⟩⟩
  · rw [← hforest] at hnode ⊢
    have hassign := (hgathered.inText.nodes node hnode).assignable
    rw [hkind] at hassign
    obtain ⟨k, hk, htarget⟩ := hassign
    exact Forest.legalTarget_of_isTarget hk htarget
  · rw [← hforest] at hroom ⊢
    exact (hgathered.arranged hroom).owns.nodup

/-- A row of names is assigned to. -/
theorem parse_forest_row : byteCount "[a, b] = f(c)".toList < 4294967296
    ∧ standard.parse "[a, b] = f(c)".toList = .ok rowProgram
    ∧ rowProgram.forest.LegalTarget none ⟨2⟩ ∧ rowProgram.forest.brokenLink? = none := by
  have hshort : byteCount "[a, b] = f(c)".toList < 4294967296 := by decide
  obtain ⟨hlegal, -, -, hlinked⟩ := parse_forest hshort parse_row
  have hnode : (⟨.assign ⟨2⟩ none ⟨5⟩, ⟨0, 13⟩⟩ : Node) ∈ rowProgram.forest.nodes := by
    simp [rowProgram]
  exact ⟨hshort, parse_row, hlegal _ hnode _ _ _ rfl, (hlinked (by decide)).1⟩

/-- Where there are more nodes than numbers, one of them has the number that stands for none, and a
link to it is no link. -/
theorem not_parse_forest : ¬∀ (text : List Char) (program : Program), byteCount text < 4294967296 →
    standard.parse text = .ok program → program.forest.brokenLink? = none := by
  intro h
  obtain ⟨f, hparse, -, -, -, -, hbroken, -⟩ := Crowd.parse_crowd
  have hshort : byteCount (Crowd.guarded Crowd.bulk ++ '\n' :: Crowd.guarded 1) < 4294967296 := by
    rw [Crowd.byteCount_guarded_lines]
    decide
  have hlinks := Forest.brokenLink?_eq_none_iff.mp (h _ _ hshort hparse)
  obtain ⟨node, hnode, hkind⟩ := List.mem_map.mp hbroken
  obtain ⟨i, hi⟩ := List.mem_iff_getElem?.mp hnode
  rw [Array.getElem?_toList] at hi
  have hslot : (NodeId.absent, false) ∈ node.kind.slots := by
    rw [hkind]
    exact .tail _ (.head _)
  cases hlinks i node hi _ hslot

end Grammar

end MatrixScript
