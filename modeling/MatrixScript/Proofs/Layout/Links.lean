import MatrixScript.Proofs.Layout.Forms
import MatrixScript.Proofs.Values.Bodies

/-!
# Links of a program

A node is stored once the nodes below it are, so every link leads to an earlier node, and a slot is
left empty only where a form leaves out a part. A step of reading keeps this, adds to the forest and
gives numbers that fit the slots of later nodes. Neither the length of the text nor the number of
nodes matters: where numbers run out, the last of them stands for all further nodes.
-/

namespace MatrixScript

open Reading

/-! ### Steps that store nothing -/

/-- A step that leaves the forest as it is. -/
def Storeless {α : Type} (f : Reading α) : Prop := ∀ r a r₁, f r = .ok (a, r₁) → r₁.forest = r.forest

namespace Storeless

variable {α : Type} {s : Surroundings}

theorem of_moves {f : Reading α} (h : ∀ r, ∃ a c, f r = .ok (a, r.movedTo c)) : Storeless f := by
  intro r a r₁ hrun
  obtain ⟨b, c, hmoved⟩ := h r
  rw [hmoved] at hrun
  cases hrun
  rfl

theorem cursor : Storeless Reading.cursor := of_moves fun r => ⟨_, r.cursor, rfl⟩

theorem offset : Storeless Reading.offset := of_moves fun r => ⟨_, r.cursor, rfl⟩

theorem peek : Storeless peek? := of_moves fun r => ⟨_, r.cursor, rfl⟩

theorem rounds : Storeless Surroundings.rounds := of_moves fun r => ⟨_, r.cursor, rfl⟩

theorem moveTo (c : Cursor) : Storeless (Reading.moveTo c) := of_moves fun _ => ⟨_, c, rfl⟩

theorem next : Storeless Reading.next := of_moves fun _ => ⟨_, _, rfl⟩

theorem advance (bytes : Nat) : Storeless (Reading.advance bytes) := of_moves fun _ => ⟨_, _, rfl⟩

theorem eat (c : Char) : Storeless (eat c) := by
  intro r b r₁ hrun
  rcases eat_eq_ok_iff.mp hrun with ⟨-, -, rfl⟩ | ⟨-, -, rfl⟩
  · rfl
  · rfl

theorem statementEnd (close : Option Char) : Storeless (Surroundings.statementEnd close) := by
  intro r b r₁ hrun
  rcases Surroundings.statementEnd_eq_ok_iff.mp hrun with ⟨-, -, rfl⟩ | ⟨-, rfl⟩
  · rfl
  · rfl

section

variable (hs : s.skipIn = Grammar.standard.skip)

include hs

theorem skip : Storeless s.skip := by
  intro r b r₁ hrun
  rw [Surroundings.skip, hs] at hrun
  obtain ⟨c, -, rfl⟩ := Grammar.skip_eq_ok_iff.mp hrun
  rfl

theorem expect (c : Char) : Storeless (s.expect c) := by
  intro r span r₁ hrun
  obtain ⟨b, r₂, hskip, -, -, rfl⟩ := Surroundings.expect_eq_ok_iff.mp hrun
  exact skip hs r b r₂ hskip

theorem expectClose (opener : Span) (opening closing : Char) :
    Storeless (s.expectClose opener opening closing) := by
  intro r u r₁ hrun
  obtain ⟨b, r₂, hskip, -, rfl⟩ := Surroundings.expectClose_eq_ok_iff.mp hrun
  exact skip hs r b r₂ hskip

theorem skipLines (k : Nat) : Storeless (s.skipLines k) := by
  induction k with
  | zero => exact of_moves fun r => ⟨_, r.cursor, rfl⟩
  | succ k ih =>
      intro r u r₁ hrun
      rcases Surroundings.skipLines_eq_ok_iff.mp hrun with ⟨-, b, r₂, hskip, hrun⟩ | ⟨-, rfl⟩
      · exact (ih r₂ u r₁ hrun).trans (skip hs (r.movedTo r.cursor.next) b r₂ hskip)
      · rfl

theorem eatWord (word : List Char) : Storeless (s.eatWord word) := by
  intro r b r₁ hrun
  obtain ⟨e, r₂, hskip, u, r₃, hlines, hcases⟩ := Surroundings.eatWord_eq_ok_iff.mp hrun
  have hsame : r₃.forest = r.forest :=
    (skipLines hs _ r₂ u r₃ hlines).trans (skip hs r e r₂ hskip)
  rcases hcases with ⟨-, -, rfl⟩ | ⟨-, -, rfl⟩
  · exact hsame
  · exact hsame

end

end Storeless

/-! ### Steps that keep links leading back -/

theorem Forest.Filled.reverse {α : Type} {n : Nat} {slot : α → NodeId × Bool} {as : List α}
    (h : Filled n (as.map slot)) : Filled n (as.reverse.map slot) := by
  rw [List.map_reverse]
  exact fun s hs => h s (List.mem_reverse.mp hs)

/-- What has to be filled may also be left empty. -/
theorem Forest.Filled.optional {n : Nat} {id : NodeId} (h : Filled n [(id, false)]) :
    Filled n [(id, true)] :=
  List.forall_mem_singleton.mpr ⟨(List.forall_mem_singleton.mp h).1, .inr (.inl rfl)⟩

theorem Forest.filled_absent (n : Nat) : Filled n [(NodeId.absent, true)] :=
  List.forall_mem_singleton.mpr ⟨.inl rfl, .inr (.inl rfl)⟩

/-- The slot that a number is for. -/
def NodeId.slot (optional : Bool) (id : NodeId) : List (NodeId × Bool) := [(id, optional)]

/-- A step keeps links leading back, and what it gives fits slots of the nodes behind it. Where it
starts, there are `n` nodes or more. -/
def LinksBack {α : Type} (slots : α → List (NodeId × Bool)) (n : Nat) (f : Reading α) : Prop :=
  ∀ r a r₁, r.forest.WellLinked → n ≤ r.forest.size → f r = .ok (a, r₁) →
    r₁.forest.WellLinked ∧ r.forest.size ≤ r₁.forest.size
      ∧ Forest.Filled r₁.forest.size (slots a)

namespace LinksBack

variable {α β γ : Type} {slots : α → List (NodeId × Bool)} {others : β → List (NodeId × Bool)}
  {n : Nat} {f : Reading α}

theorem bind {g : α → Reading β} (hf : LinksBack slots n f)
    (hg : ∀ m a, n ≤ m → Forest.Filled m (slots a) → LinksBack others m (g a)) :
    LinksBack others n (f >>= g) := by
  intro r b r₂ hlinks hn hrun
  obtain ⟨a, r₁, hfr, hgr⟩ := bind_eq_ok_iff.mp hrun
  obtain ⟨hlinks₁, hgrows, ha⟩ := hf r a r₁ hlinks hn hfr
  obtain ⟨hlinks₂, hgrows₂, hb⟩ :=
    hg _ a (Nat.le_trans hn hgrows) ha r₁ b r₂ hlinks₁ (Nat.le_refl _) hgr
  exact ⟨hlinks₂, Nat.le_trans hgrows hgrows₂, hb⟩

/-- Behind a step that stores nothing. -/
theorem behind {g : Reading γ} {f : γ → Reading α} (hg : Storeless g)
    (hf : ∀ a, LinksBack slots n (f a)) : LinksBack slots n (g >>= f) := by
  intro r b r₂ hlinks hn hrun
  obtain ⟨a, r₁, hgr, hfr⟩ := bind_eq_ok_iff.mp hrun
  rw [← hg r a r₁ hgr] at hlinks hn ⊢
  exact hf a r₁ b r₂ hlinks hn hfr

theorem pure {a : α} (ha : Forest.Filled n (slots a)) : LinksBack slots n (pure a) := by
  intro r b r₁ hlinks hn hrun
  obtain ⟨rfl, rfl⟩ := pure_eq_ok_iff.mp hrun
  exact ⟨hlinks, Nat.le_refl _, ha.mono hn⟩

theorem fail (fault : ParseFault) (span : Span) : LinksBack slots n (Reading.fail fault span) :=
  fun _ _ _ _ _ hrun => absurd hrun fail_ne_ok

theorem within {construct : Construct} (h : LinksBack slots n f) :
    LinksBack slots n (within construct f) :=
  fun r a r₁ hlinks hn hrun => h r a r₁ hlinks hn (within_eq_ok_iff.mp hrun)

theorem allocFrom {kind : NodeKind NodeId} (hkind : Forest.Filled n kind.slots) (start : Nat) :
    LinksBack (NodeId.slot false) n (allocFrom kind start) := by
  intro r id r₁ hlinks hn hrun
  obtain ⟨rfl, rfl⟩ := allocFrom_eq_ok_iff.mp hrun
  rw [Reader.size_withNode]
  refine ⟨hlinks.push (hkind.mono hn), Nat.le_succ _, fun slot hslot => ?_⟩
  rw [List.mem_singleton.mp hslot]
  exact r.forest.fills_nextId false

/-- A node without slots. -/
theorem leaf {kind : NodeKind NodeId} (hkind : kind.slots = []) (start : Nat) :
    LinksBack (NodeId.slot false) n (Reading.allocFrom kind start) :=
  allocFrom (hkind ▸ List.forall_mem_nil _) start

end LinksBack

namespace Surroundings

/-- Surroundings whose expressions keep links leading back. -/
structure Linking (s : Surroundings) : Prop where
  skip : s.skipIn = Grammar.standard.skip
  expression (n : Nat) (mode : Mode) (least : UInt8) :
    LinksBack (NodeId.slot false) n (s.expressionIn mode least)

namespace Linking

variable {s : Surroundings} {n : Nat}

theorem inside (h : s.Linking) (mode : Mode) : (s.inside mode).Linking := ⟨h.skip, h.expression⟩

theorem any (h : s.Linking) : LinksBack (NodeId.slot false) n s.expression := h.expression n _ _

/-! ### Sequences -/

theorem items (h : s.Linking) (opener : Span) (opening closing : Char) {k : Nat}
    {found : List NodeId} (hfound : Forest.Filled n (found.map (·, false))) :
    LinksBack (List.map (·, false)) n (s.items opener opening closing k found) := by
  induction k generalizing n found with
  | zero => exact .fail _ _
  | succ k ih =>
      refine h.any.bind fun m item hm hitem => ?_
      have hmore : Forest.Filled m ((item :: found).map (·, false)) :=
        Forest.filled_append.mpr ⟨hitem, hfound.mono hm⟩
      refine .behind (.skip h.skip) fun _ => .behind (.eat ',') fun comma => ?_
      cases comma with
      | true => exact ih hmore
      | false => exact .behind (.expectClose h.skip _ _ _) fun _ => .pure hmore.reverse

theorem delimited (h : s.Linking) (mode : Mode) (opener : Span) (opening closing : Char)
    (construct : Construct) :
    LinksBack (List.map (·, false)) n (s.delimited mode opener opening closing construct) := by
  have hinside := h.inside mode
  refine .within (.behind (.skip hinside.skip) fun _ => .behind (.eat closing) fun closed => ?_)
  cases closed with
  | true => exact .pure (List.forall_mem_nil _)
  | false => exact .behind .rounds fun _ => hinside.items _ _ _ (List.forall_mem_nil _)

theorem condition (h : s.Linking) : LinksBack (NodeId.slot false) n s.condition := by
  have hinside := h.inside .group
  refine .behind (.expect h.skip '(') fun opener => hinside.any.bind fun m cond _ hcond => ?_
  exact .behind (.expectClose hinside.skip _ _ _) fun _ => .pure hcond

theorem statementList (h : s.Linking) (close : Option Char) {k : Nat} {found : List Statement}
    (hfound : Forest.Filled n (found.map (·.root, false))) :
    LinksBack (List.map (·.root, false)) n (s.statementList close k found) := by
  induction k generalizing n found with
  | zero => exact .behind .cursor fun _ => .fail _ _
  | succ k ih =>
      refine .behind (.skip h.skip) fun _ => .behind .peek fun c => ?_
      cases c with
      | none => exact .pure hfound.reverse
      | some c =>
          dsimp only
          split
          · exact .pure hfound.reverse
          split
          · exact .behind .next fun _ => ih hfound
          · refine .bind (.within h.any) fun m root hm hroot => .behind (.skip h.skip) fun _ => ?_
            exact .behind (.statementEnd close) fun _ =>
              ih (Forest.filled_append.mpr ⟨hroot, hfound.mono hm⟩)

theorem statements (h : s.Linking) (close : Option Char) :
    LinksBack (List.map (·.root, false)) n (s.statements close) :=
  .behind .rounds fun _ => h.statementList close (List.forall_mem_nil _)

/-! ### Control flow -/

theorem keyword {word : List Char} {parts : Surroundings → Reading (NodeKind NodeId)}
    (hparts : LinksBack NodeKind.slots n (parts s)) :
    LinksBack (NodeId.slot false) n ((Form.keyword word parts).read s) :=
  .behind .offset fun start => .behind (.advance _) fun _ =>
    hparts.bind fun _ _ _ hkind => .allocFrom hkind start

theorem branch (h : s.Linking) : LinksBack (NodeId.slot false) n (Form.branch.read s) := by
  refine keyword (.within (h.condition.bind fun m cond _ hcond => ?_))
  refine h.any.bind fun m₁ yes hm₁ hyes => .behind (.eatWord h.skip _) fun more => ?_
  have hboth := Forest.filled_append.mpr ⟨hcond.mono hm₁, hyes⟩
  cases more with
  | true =>
      exact h.any.bind fun m₂ no hm₂ hno =>
        .pure (Forest.filled_append.mpr ⟨hboth.mono hm₂, hno.optional⟩)
  | false =>
      exact .pure (Forest.filled_append.mpr ⟨hboth, Forest.filled_absent m₁⟩)

theorem whileLoop (h : s.Linking) : LinksBack (NodeId.slot false) n (Form.whileLoop.read s) :=
  keyword (.within (h.condition.bind fun _ _ _ hcond => h.any.bind fun _ _ hm hbody =>
    .pure (Forest.filled_append.mpr ⟨hcond.mono hm, hbody⟩)))

theorem headPart (h : s.Linking) (close : Char) :
    LinksBack (NodeId.slot true) n (Form.headPart s close) := by
  refine .behind (.skip h.skip) fun _ => .behind .peek fun c => ?_
  split
  · exact .pure (Forest.filled_absent n)
  · intro r id r₁ hlinks hn hrun
    obtain ⟨hlinks₁, hgrows, hid⟩ := h.any r id r₁ hlinks hn hrun
    exact ⟨hlinks₁, hgrows, hid.optional⟩

theorem forLoop (h : s.Linking) : LinksBack (NodeId.slot false) n (Form.forLoop.read s) := by
  have head := h.inside .group
  refine keyword (.within (.behind (.skip h.skip) fun _ => .behind (.expect h.skip '(') fun _ => ?_))
  refine (head.headPart ';').bind fun m₁ init _ hinit => .behind (.expect head.skip ';') fun _ => ?_
  refine (head.headPart ';').bind fun m₂ cond hm₂ hcond => ?_
  have htwo := Forest.filled_append.mpr ⟨hinit.mono hm₂, hcond⟩
  refine .behind (.expect head.skip ';') fun _ => (head.headPart ')').bind fun m₃ step hm₃ hstep => ?_
  have hthree := Forest.filled_append.mpr ⟨htwo.mono hm₃, hstep⟩
  refine .behind (.expectClose head.skip _ _ _) fun _ => h.any.bind fun m₄ body hm₄ hbody => ?_
  exact .pure (Forest.filled_append.mpr ⟨hthree.mono hm₄, hbody⟩)

/-! ### Literals -/

theorem number : LinksBack (NodeId.slot false) n (Form.number.read s) := by
  refine .behind .cursor fun start => .behind (.advance _) fun _ => .behind .cursor fun c => ?_
  split
  · exact .behind .next fun _ => .leaf rfl _
  · exact .leaf rfl _

theorem text : LinksBack (NodeId.slot false) n (Form.text.read s) := by
  refine .behind .cursor fun start => ?_
  split
  · exact .behind (.advance _) fun _ => .leaf rfl _
  · exact .within (.fail _ _)

theorem identifier : LinksBack (NodeId.slot false) n (Form.identifier.read s) :=
  .behind .cursor fun _ => .behind (.moveTo _) fun _ => .leaf rfl _

/-! ### Delimiters -/

theorem group (h : s.Linking) : LinksBack (NodeId.slot false) n (Form.group.read s) := by
  refine .behind .cursor fun start => .behind .next fun _ => ?_
  refine (h.delimited _ _ _ _ _).bind fun m items _ hitems => ?_
  rcases items with _ | ⟨first, _ | ⟨second, items⟩⟩
  · exact .allocFrom hitems _
  · exact .pure hitems
  · exact .allocFrom hitems _

theorem matrixRows (h : s.Linking) (opener : Span) {k : Nat} {row : List NodeId}
    {rows : List (List NodeId)}
    (hfound : Forest.Filled n ((rows.reverse.flatten ++ row.reverse).map (·, false))) :
    LinksBack (fun rows => rows.flatten.map (·, false)) n (Form.matrixRows s opener k row rows) := by
  induction k generalizing n row rows with
  | zero => exact .fail _ _
  | succ k ih =>
      have hend := hfound
      rw [← Form.endRow_flatten] at hend
      refine .behind (.skip h.skip) fun _ => .behind .peek fun c => ?_
      split
      · exact .fail _ _
      · exact .behind .next fun _ => .pure hend
      split
      · refine .behind .next fun _ => ih ?_
        rwa [List.reverse_nil, List.append_nil]
      split
      · exact .behind .next fun _ => ih hfound
      · refine h.any.bind fun m cell hm hcell => ih ?_
        rw [List.reverse_cons, ← List.append_assoc, List.map_append]
        exact Forest.filled_append.mpr ⟨hfound.mono hm, hcell⟩

theorem matrix (h : s.Linking) : LinksBack (NodeId.slot false) n (Form.matrix.read s) := by
  refine .behind .cursor fun start => .behind .next fun _ => ?_
  refine .bind (.within (.behind .rounds fun k => (h.inside .matrix).matrixRows _ ?_))
    fun m rows _ hrows => .allocFrom hrows _
  exact List.forall_mem_nil _

theorem abs (h : s.Linking) : LinksBack (NodeId.slot false) n (Form.abs.read s) := by
  have hinside := h.inside .abs
  refine .behind .cursor fun start => .behind .next fun _ => ?_
  refine .bind (.within (hinside.any.bind fun m operand _ hoperand => ?_)) fun _ _ _ hoperand =>
    .allocFrom hoperand _
  exact .behind (.expectClose hinside.skip _ _ _) fun _ => .pure hoperand

theorem leading (h : s.Linking) : LinksBack (NodeId.slot false) n (Form.leading.read s) :=
  .behind .cursor fun _ => .behind .next fun _ => (h.expression n _ _).bind fun _ _ _ hoperand =>
    .allocFrom hoperand _

theorem block (h : s.Linking) : LinksBack (NodeId.slot false) n (Form.block.read s) := by
  have hinside := h.inside .block
  refine .behind .cursor fun start => .behind .next fun _ => ?_
  refine .bind (?_ : LinksBack (List.map fun t : Statement => (t.root, false)) n _)
    fun m ts _ hts => .allocFrom ?_ _
  · exact .within ((hinside.statements _).bind fun _ _ _ hts =>
      .behind (.expectClose hinside.skip _ _ _) fun _ => .pure hts)
  · rw [NodeKind.slots, List.map_map]
    exact hts

/-- Every form of the language keeps links leading back. -/
theorem form (h : s.Linking) {f : Nat × Form} (hf : f ∈ Form.standard) :
    LinksBack (NodeId.slot false) n (f.2.read s) := by
  simp only [Form.standard, List.mem_cons, List.not_mem_nil, or_false] at hf
  rcases hf with rfl | rfl | rfl | rfl | rfl | rfl | rfl | rfl | rfl | rfl | rfl | rfl | rfl
  · exact h.branch
  · exact h.whileLoop
  · exact h.forLoop
  · exact keyword (.pure (List.forall_mem_nil _))
  · exact .behind .offset fun _ => .behind .next fun _ => .leaf rfl _
  · exact number
  · exact text
  · exact identifier
  · exact h.group
  · exact h.matrix
  · exact h.abs
  · exact h.leading
  · exact h.block

/-! ### Expressions -/

open Grammar

variable {left : NodeId} {span : Span}

theorem operand (h : s.Linking) : LinksBack (NodeId.slot false) n (Grammar.standard.operand s) := by
  intro r id r₁ hlinks hn hrun
  obtain ⟨b, r₂, hskip, form, hform, r₃, hread, rfl⟩ := operand_eq_ok_iff.mp hrun
  obtain ⟨⟨priority, hmem⟩, -⟩ := findForm?_eq_some hform
  rw [← Storeless.skip h.skip r b r₂ hskip] at hlinks hn ⊢
  exact h.form hmem r₂ id r₃ hlinks hn hread

/-- Every operator of the language builds its node from the node on its left and what it reads. -/
theorem operator (h : s.Linking) {op : Operator} (hop : op ∈ Grammar.standard.operators)
    (hleft : Forest.Filled n (NodeId.slot false left)) :
    LinksBack NodeKind.slots n (applyFixity s op left span) := by
  rcases Operator.standard_cases hop with ⟨symbol, o, rfl⟩ | rfl | rfl | rfl
    | ⟨symbol, p, a, o, rfl⟩ | ⟨symbol, p, o, rfl⟩
  -- what an assignment or a lambda checks on its left makes no difference to the links
  · intro r kind r₁ hlinks hn hrun
    obtain ⟨right, target, hright, -, -, rfl⟩ := applyFixity_assignment_eq_ok_iff.mp hrun
    obtain ⟨hlinks₁, hgrows, hfilled⟩ := h.expression n _ _ r right r₁ hlinks hn hright
    exact ⟨hlinks₁, hgrows,
      Forest.filled_append.mpr ⟨hleft.mono (Nat.le_trans hn hgrows), hfilled⟩⟩
  · intro r kind r₁ hlinks hn hrun
    obtain ⟨body, head, params, hbody, -, -, rfl⟩ := applyFixity_lambda_eq_ok_iff.mp hrun
    exact h.expression n _ _ r body r₁ hlinks hn hbody
  · exact (h.expression n _ _).bind fun _ _ hm hright =>
      .pure (Forest.filled_append.mpr ⟨hleft.mono hm, hright⟩)
  · exact (h.delimited _ _ _ _ _).bind fun _ _ hm hargs =>
      .pure (Forest.filled_append.mpr ⟨hleft.mono hm, hargs⟩)
  · exact (h.expression n _ _).bind fun _ _ hm hright =>
      .pure (Forest.filled_append.mpr ⟨hleft.mono hm, hright⟩)
  · exact .pure hleft

theorem chain (h : s.Linking) (least : UInt8) {k : Nat}
    (hleft : Forest.Filled n (NodeId.slot false left)) :
    LinksBack (NodeId.slot false) n (Grammar.standard.chain s least k left) := by
  induction k generalizing n left with
  | zero => exact .behind .cursor fun _ => .fail _ _
  | succ k ih =>
      intro r id r₁ hlinks hn hrun
      obtain ⟨spaced, r₂, hskip, hcases⟩ := chain_eq_ok_iff.mp hrun
      rw [← Storeless.skip h.skip r spaced r₂ hskip] at hlinks hn ⊢
      rcases hcases with ⟨-, rfl, rfl⟩ | ⟨-, found, hfound, ⟨-, rfl, rfl⟩ | ⟨-, kind, r₃, hkind, hrun⟩⟩
      · exact ⟨hlinks, Nat.le_refl _, hleft.mono hn⟩
      · exact ⟨hlinks, Nat.le_refl _, hleft.mono hn⟩
      · -- the node of the operator is stored, and the chain goes on with its number
        obtain ⟨hlinks₃, hgrows, hfilled⟩ := h.operator (findOperator?_eq_some hfound).1 hleft
          (r₂.movedTo (r₂.cursor.advance found.bytes)) kind r₃ hlinks hn hkind
        have hnode : Forest.Filled (r₃.forest.size + 1) (NodeId.slot false r₃.forest.nextId) :=
          fun slot hslot => List.mem_singleton.mp hslot ▸ r₃.forest.fills_nextId false
        obtain ⟨hlinks₁, hmore, hid⟩ := ih hnode _ id r₁ (hlinks₃.push hfilled)
          (Nat.le_of_eq (Forest.size_push _).symm) hrun
        rw [Reader.afterOperator_forest, Reader.size_withNode] at hmore
        exact ⟨hlinks₁, Nat.le_trans hgrows (Nat.le_of_succ_le hmore), hid⟩

end Linking

end Surroundings

namespace Grammar

/-- All expressions of the language keep links leading back. -/
theorem linking_standard (fuel : Nat) (mode : Mode) :
    Surroundings.Linking ⟨mode, standard.skip, standard.expression fuel⟩ := by
  induction fuel generalizing mode with
  | zero => exact ⟨rfl, fun n mode least => .behind .cursor fun _ => .fail _ _⟩
  | succ fuel ih =>
      refine ⟨rfl, fun n mode least => (ih mode).operand.bind fun m left _ hleft => ?_⟩
      intro r id r₁ hlinks hn hrun
      rw [get_bind, ite_run] at hrun
      split at hrun
      · exact LinksBack.pure hleft r id r₁ hlinks hn hrun
      · exact LinksBack.behind .rounds (fun _ => (ih mode).chain least hleft) r id r₁ hlinks hn hrun

variable {text : List Char} {program : Program}

/-- The slots of a program are filled as they have to be, and the statements are among the nodes. -/
theorem wellLinked_of_parse (hparse : standard.parse text = .ok program) :
    program.forest.WellLinked
      ∧ ∀ t ∈ program.statements, program.forest.contains t.root = true := by
  obtain ⟨ts, r, hrun, rfl⟩ := exists_of_parse hparse
  obtain ⟨hlinks, -, hroots⟩ :=
    (linking_standard (text.length + 1) .statement).statements none (.ofText text) ts r
      Forest.wellLinked_empty (Nat.le_refl 0) hrun
  exact ⟨hlinks, fun t ht =>
    (hroots (t.root, false) (List.mem_map_of_mem ht)).contains⟩

/-- In a program links lead to earlier nodes, and the statements are among the nodes. -/
theorem linked_of_parse (hparse : standard.parse text = .ok program) :
    program.forest.Linked ∧ ∀ t ∈ program.statements, t.root.index.toNat < program.forest.size := by
  obtain ⟨hlinks, hroots⟩ := wellLinked_of_parse hparse
  exact ⟨hlinks.linked, fun t ht => of_decide_eq_true (hroots t ht)⟩

end Grammar

end MatrixScript
