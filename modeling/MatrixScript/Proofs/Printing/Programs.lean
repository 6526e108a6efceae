import MatrixScript.Proofs.Crowds
import MatrixScript.Proofs.Printing.ControlFlow
import MatrixScript.Proofs.Printing.Targets

/-!
# Printed programs are read back

Every term is read as its tree in every place whose level its outermost operator has, and every line
as its statement. The proof follows the structure of the program; the levels decide in each place
that the operator behind an operand does not take a part of it.
-/

namespace MatrixScript

namespace Printing

open Reading Grammar

/-! ### Levels of terms -/

theorem Term.inert (t : Term) : Inert t.tree := by
  cases t with
  | joined op a b => exact ⟨_, rfl, by cases op <;> rfl⟩
  | _ => exact ⟨_, rfl, rfl⟩

theorem Term.level_le_edge (t : Term) : t.level ≤ t.edge := by
  cases t with
  | joined op a b =>
      change op.level ≤ op.rightNeed
      unfold Infix.rightNeed
      cases op.assoc with
      | left => exact Nat.le_succ _
      | right => exact Nat.le_refl _
  | _ => exact Nat.le_of_ble_eq_true rfl

/-- Operators that bind more tightly than any between operands find their operand whole. -/
theorem Term.edge_of_lt_level {t : Term} (h : Precedence.power.toNat < t.level) : t.edge = 255 := by
  cases t with
  | joined op a b => exact absurd h (Nat.not_lt.mpr op.levels.2.1)
  | leading sign a => exact absurd h (show ¬10 < 9 by decide)
  | lambda params body => exact absurd h (show ¬10 < 2 by decide)
  | assign x sets value => exact absurd h (show ¬10 < 1 by decide)
  | assignAt x args sets value => exact absurd h (show ¬10 < 1 by decide)
  | assignAll first others value => exact absurd h (show ¬10 < 1 by decide)
  | _ => rfl

/-- An operator does not take the end of a left operand without parentheses. -/
theorem Infix.level_lt_edge (op : Infix) {t : Term} (h : op.leftNeed ≤ t.level) :
    op.level + 1 ≤ t.edge := by
  have hedge := t.level_le_edge
  have hlow : 2 < op.level := op.levels.1
  have hhigh : op.level ≤ 10 := op.levels.2.1
  unfold leftNeed at h
  cases hassoc : op.assoc with
  | right =>
      rw [hassoc] at h
      exact Nat.le_trans h hedge
  | left =>
      rw [hassoc] at h
      rcases Nat.lt_or_eq_of_le h with hlt | heq
      · exact Nat.le_trans hlt hedge
      · -- Operators of one level group alike, so the right operand of the other one binds tighter.
        cases t with
        | joined other a b =>
            have hother : other.assoc = .left := (assoc_eq heq).symm.trans hassoc
            change op.level + 1 ≤ other.rightNeed
            rw [rightNeed, hother]
            exact Nat.succ_le_succ (Nat.le_of_eq heq)
        | leading sign a => exact Nat.succ_le_succ (Nat.le_of_eq heq)
        | lambda params body => exact absurd heq (Nat.ne_of_gt hlow)
        | assign x sets value => exact absurd heq (Nat.ne_of_gt (Nat.lt_of_succ_lt hlow))
        | assignAt x args sets value => exact absurd heq (Nat.ne_of_gt (Nat.lt_of_succ_lt hlow))
        | assignAll first others value =>
            exact absurd heq (Nat.ne_of_gt (Nat.lt_of_succ_lt hlow))
        | _ => exact Nat.le_trans (Nat.succ_le_succ hhigh) (Nat.le_of_ble_eq_true rfl)

/-! ### Terms -/

/-- The printed term is read as its tree, at its level. -/
abbrev Term.Reads (t : Term) : Prop := Readable t.chars t.level t.edge t.tree

/-- What stands between delimiters needs no level. -/
theorem Term.Reads.whole {t : Term} (h : t.Reads) : Whole t.chars 0 0 t.tree :=
  Readable.whole h (Nat.zero_le _) (Nat.zero_le _)

/-- An operand on the right of a sign or an operator. -/
theorem Term.Reads.right {t : Term} (h : t.Reads) {need : Nat} {least : UInt8}
    (hleast : least.toNat = need) : Whole (wrap need t.level t.chars) least need t.tree := by
  have hwrapped : Readable (wrap need t.level t.chars) need need t.tree :=
    Readable.wrapped h t.inert fun hle => Nat.le_trans hle t.level_le_edge
  have hwhole := hwrapped.whole (Nat.le_of_eq hleast) (Nat.le_of_eq hleast)
  rwa [hleast] at hwhole

/-- An operand in front of what binds more tightly than any operator between operands. -/
theorem Term.Reads.tight {t : Term} (h : t.Reads) {need : Nat}
    (hneed : Precedence.power.toNat < need) (hbound : need < 255) :
    Readable (wrap need t.level t.chars) need (need + 1) t.tree :=
  Readable.wrapped h t.inert fun hle => by
    rw [t.edge_of_lt_level (Nat.lt_of_lt_of_le hneed hle)]
    exact hbound

theorem reads_trailing (mark : Mark) {a : Term} (h : a.Reads) : (Term.trailing mark a).Reads := by
  refine (h.tight (by decide) (by decide)).continued (continues_mark mark) (List.cons_ne_nil _ _) ?_
  rw [nodes_of]
  change nodes a.tree ≤ 0 + (nodes a.tree + 0) + 1
  omega

theorem reads_call {f : Term} {args : List Term} (h : f.Reads)
    (hargs : Items (allChars args) (trees args)) : (Term.call f args).Reads := by
  refine (h.tight (by decide) (by decide)).continued (continues_call hargs) (List.cons_ne_nil _ _) ?_
  rw [nodes_of, NodeKind.children_call]
  change nodes f.tree ≤ 0 + (nodes f.tree + _) + 1
  omega

theorem reads_joined (op : Infix) {a b : Term} (ha : a.Reads) (hb : b.Reads) :
    (Term.joined op a b).Reads := by
  have hnodes : nodes (Term.joined op a b).tree = nodes a.tree + nodes b.tree + 1 := by
    have hchildren : (op.node a.tree b.tree).children = [a.tree, b.tree] := by cases op <;> rfl
    have hhead : headNodes (op.node a.tree b.tree) = 0 := by cases op <;> rfl
    rw [Term.tree, nodes_of, hchildren, hhead, nodesAll, nodesAll, nodesAll]
    omega
  have hwrapped : Readable (wrap op.leftNeed a.level a.chars) op.leftNeed (op.level + 1) a.tree :=
    Readable.wrapped ha a.inert op.level_lt_edge
  have hneed : op.level ≤ op.leftNeed := by
    unfold Infix.leftNeed
    cases op.assoc with
    | left => exact Nat.le_refl _
    | right => exact Nat.le_succ _
  exact (hwrapped.mono hneed (Nat.le_refl _)).joined op.operator_mem (hb.right op.rightLeast_toNat)
    (op.builds a.tree b.tree) (hnodes ▸ Nat.lt_succ_self _)

theorem readable_lambda (params : List Name) {body : List Char} {bodyTree : Tree} {edge : Nat}
    (h : Whole body Precedence.lambda edge bodyTree) :
    Readable (head params ++ ' ' :: (['=', '>'] ++ ' ' :: body)) Precedence.lambda.toNat edge
      (.of (.lambda (names params) bodyTree)) := by
  have hop : Operator.lambda ∈ standard.operators :=
    mem_standard_operators.mpr (by simp [Operator.standard])
  have hnodes : nodes (headTree params) + nodes bodyTree
      < nodes (.of (.lambda (names params) bodyTree)) := by
    rw [nodes_of, nodes_head params bodyTree]
    exact Nat.lt_succ_self _
  exact (readable_head params).joined hop h (builds_lambda params bodyTree) hnodes

/-- The sign of plain assignment. -/
def Sets.plain : Sets where
  symbol := ['=']
  op := none
  listed := mem_standard_operators.mpr (by simp [Operator.standard])

/-- An assignment to whatever has been read as a target. -/
theorem reads_assignment {target : List Char} {l : Tree} (sets : Sets) {value : Term}
    (htarget : Readable target Precedence.assign.toNat (Precedence.assign.toNat + 1) l)
    (hassignable : Assignable sets.op.isSome l) (hvalue : value.Reads) :
    Readable (target ++ ' ' :: (sets.symbol ++ ' ' ::
        wrap Precedence.assign.toNat value.level value.chars)) Precedence.assign.toNat
      Precedence.assign.toNat (.of (.assign l sets.op value.tree)) := by
  have hnodes : nodes l + nodes value.tree < nodes (.of (.assign l sets.op value.tree)) := by
    rw [nodes_of]
    change _ < 0 + (nodes l + (nodes value.tree + 0)) + 1
    omega
  exact htarget.joined sets.listed (hvalue.right rfl) (builds_assignment hassignable value.tree) hnodes

/-! ### Programs -/

mutual

theorem Term.reads : (t : Term) → t.Reads
  | .name x => readable_name x
  | .text value => readable_text value
  | .leading sign a => readable_leading sign (a.reads.right rfl)
  | .trailing mark a => reads_trailing mark a.reads
  | .joined op a b => reads_joined op a.reads b.reads
  | .call f args => reads_call f.reads (items_reads args)
  | .lambda params body => readable_lambda params (body.reads.right rfl)
  | .procedure params body =>
      readable_lambda params ((closed_block body (lines_stated body)).whole _ _)
  | .assign x sets value =>
      reads_assignment sets (readable_name x) (assignable_name _ x) value.reads
  | .assignAt x args sets value =>
      reads_assignment sets ((reads_call (f := .name x) (readable_name x) (items_reads args)).mono
        (Nat.le_of_ble_eq_true rfl) (Nat.le_of_ble_eq_true rfl)) (assignable_call _ x _) value.reads
  | .assignAll first others value =>
      reads_assignment .plain (readable_row first others) (assignable_row first others) value.reads

theorem items_reads : (ts : List Term) → Items (allChars ts) (trees ts)
  | [] => .nil
  | t :: ts => .cons t.reads.whole (items_reads ts)

theorem part_reads : (part : Option Term) → Part (partChars part) (partTree part)
  | none => .inl ⟨rfl, rfl⟩
  | some t => .inr t.reads.whole

theorem Command.stated : (command : Command) → Stated command.chars command.tree
  | .term t => t.reads.whole.stated
  | .block body => (closed_block body (lines_stated body)).stated
  | .branch cond yes => stated_branch cond.reads.whole (closed_block yes (lines_stated yes))
  | .branchElse cond yes no =>
      (closed_branchElse cond.reads.whole (closed_block yes (lines_stated yes))
        (closed_block no (lines_stated no))).stated
  | .whileLoop cond body =>
      (closed_while cond.reads.whole (closed_block body (lines_stated body))).stated
  | .forLoop init cond step body =>
      (closed_for (part_reads init) (part_reads cond) (part_reads step)
        (closed_block body (lines_stated body))).stated

theorem lines_stated : (lines : List Line) → AllStated lines
  | [] => nofun
  | .mk command muted :: lines => by
      intro c m hmem
      rcases List.mem_cons.mp hmem with heq | hmem
      · cases heq
        exact command.stated
      · exact lines_stated lines c m hmem

end

/-- Printed lines are read back as the lines that were printed. The numbers of nodes have 32 bits,
which bounds how many lines there is room for. -/
theorem reads_printed (lines : List Line) (hroom : linesNodes lines ≤ 4294967295) :
    Reads (linesChars lines) (linesTrees lines) := by
  have hstated := lines_stated lines
  have hlength := lines_length lines hstated
  have hrest : (Reader.ofText (linesChars lines)).cursor.rest = linesChars lines ++ [] :=
    (List.append_nil _).symm
  have hclose : ∀ x ∈ (none : Option Char), x ∈ closing := nofun
  have hfollows : Follows [] := ⟨nofun, rfl⟩
  obtain ⟨ts, r₁, hlist, hshown, -, -⟩ := statementList_lines .statement lines hstated rfl
    rfl hclose rfl hfollows hrest (Reader.linked_ofText _) (Nat.le_refl _)
    (show 0 + linesNodes lines ≤ _ by omega) (Nat.lt_succ_of_le hlength) []
  exact ⟨⟨r₁.forest, ts⟩, parse_of_statements hlist, (unfold_of_showsLines hshown).2⟩

/-- An assignment that is muted, and a loop with a statement in its body. -/
def loopLines : List Line :=
  let add : Infix := .binary "+".toList Precedence.additive .left .add
    (mem_standard_operators.mpr (by simp [Operator.standard]))
  let mul : Infix := .binary "*".toList Precedence.multiplicative .left .mul
    (mem_standard_operators.mpr (by simp [Operator.standard]))
  let x : Name := ⟨['x'], by decide⟩
  let f : Name := ⟨['f'], by decide⟩
  let sum := Term.joined add (.name x) (.name f)
  [.mk (.term (.assign x .plain (.joined mul sum (.leading .neg (.name f))))) true,
    .mk (.whileLoop (.name x) [.mk (.term (.trailing .factorial (.call (.name f) [sum]))) false])
      false]

/-- Of the operands, only the sum on the left of the product is in parentheses. -/
theorem reads_printed_loop : linesNodes loopLines ≤ 4294967295
    ∧ linesChars loopLines = "x = (x + f) * -f;while (x) \x7bf(x + f)!\n\x7d\n".toList
    ∧ Reads (linesChars loopLines) (linesTrees loopLines) :=
  ⟨by decide, by decide, reads_printed loopLines (by decide)⟩

theorem linesTrees_names (xs : List Name) :
    linesTrees (xs.map fun x => .mk (.term (.name x)) false) = xs.map fun x => (x.tree, false) := by
  induction xs with
  | nil => rfl
  | cons x xs ih =>
      rw [List.map_cons, List.map_cons, linesTrees, ih]
      rfl

/-- Lines that are more than there are numbers for cannot all be told apart by their roots. -/
theorem not_reads_printed : ¬∀ lines : List Line, Reads (linesChars lines) (linesTrees lines) := by
  intro h
  obtain ⟨xs, hlength, hdistinct⟩ := Crowd.exists_names
  obtain ⟨program, -, hread⟩ := h (xs.map fun x => .mk (.term (.name x)) false)
  rw [linesTrees_names] at hread
  have htrees := congrArg (List.map Prod.fst) hread
  rw [List.map_map, List.map_map] at htrees
  let tree (id : NodeId) : Tree := (program.forest.unfold id).bare
  have hroots : (program.statements.map (·.root)).map tree = xs.map (·.tree) := by
    rw [List.map_map]
    exact htrees
  have hcount := NodeId.length_le_of_nodup (List.Nodup.of_map tree (hroots ▸ hdistinct))
  have hsame := congrArg List.length hroots
  rw [List.length_map] at hsame
  rw [hsame, List.length_map, hlength] at hcount
  exact absurd hcount (by decide)

end Printing

end MatrixScript
