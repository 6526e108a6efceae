import MatrixScript.Proofs.Reading.Operators
import MatrixScript.Proofs.Reading.Trivia

/-!
# What was read before

A reader remembers whether its last operand was control flow. Every operand renews that memory, and
nothing looks at it before the first operand has been read, so it does not matter to a sequence of
statements what stood in front of it.
-/

namespace MatrixScript

open Reading

/-- The reader with another memory of its last operand. -/
def Reader.flowing (r : Reader) (flow : Bool) : Reader := { r with afterControlFlow := flow }

/-- Steps that succeed alike whatever the last operand was. -/
def Oblivious {α : Type} (f : Reading α) : Prop :=
  ∀ r a r₁, f r = .ok (a, r₁) → ∀ flow, ∃ flow₁, f (r.flowing flow) = .ok (a, r₁.flowing flow₁)

/-- Steps that also leave the same reader behind, since they read an operand themselves. -/
def Renewing {α : Type} (f : Reading α) : Prop :=
  ∀ r a r₁, f r = .ok (a, r₁) → ∀ flow, f (r.flowing flow) = .ok (a, r₁)

section Rules

variable {α β : Type} {f : Reading α} {g : α → Reading β}

theorem Renewing.oblivious (h : Renewing f) : Oblivious f :=
  fun r a r₁ hrun flow => ⟨r₁.afterControlFlow, h r a r₁ hrun flow⟩

theorem Renewing.bind (hf : Renewing f) (g : α → Reading β) : Renewing (f >>= g) := by
  intro r b r₂ hrun flow
  obtain ⟨a, r₁, hfr, hgr⟩ := bind_eq_ok_iff.mp hrun
  rw [bind_ok (hf r a r₁ hfr flow), hgr]

namespace Oblivious

theorem bind (hf : Oblivious f) (hg : ∀ a, Oblivious (g a)) : Oblivious (f >>= g) := by
  intro r b r₂ hrun flow
  obtain ⟨a, r₁, hfr, hgr⟩ := bind_eq_ok_iff.mp hrun
  obtain ⟨flow₁, hfr'⟩ := hf r a r₁ hfr flow
  obtain ⟨flow₂, hgr'⟩ := hg a r₁ b r₂ hgr flow₁
  exact ⟨flow₂, by rw [bind_ok hfr', hgr']⟩

theorem within {construct : Construct} (h : Oblivious f) : Oblivious (within construct f) := by
  intro r a r₁ hrun flow
  obtain ⟨flow₁, hrun'⟩ := h r a r₁ (within_eq_ok_iff.mp hrun) flow
  exact ⟨flow₁, within_eq_ok_iff.mpr hrun'⟩

theorem fail (fault : ParseFault) (span : Span) : Oblivious (Reading.fail fault span : Reading α) :=
  fun _ _ _ hrun => absurd hrun fail_ne_ok

/-- Steps that see and change only what is not the memory of the last operand. -/
theorem of_steady {step : Reader → α × Reader} (hf : ∀ r, f r = .ok (step r))
    (hstep : ∀ r flow, step (r.flowing flow) = ((step r).1, (step r).2.flowing flow)) :
    Oblivious f := by
  intro r a r₁ hrun flow
  rw [hf] at hrun
  refine ⟨flow, ?_⟩
  rw [hf, hstep, Except.ok.inj hrun]

theorem pure (a : α) : Oblivious (pure a : Reading α) :=
  of_steady (fun _ => rfl) fun _ _ => rfl

theorem cursor : Oblivious cursor := of_steady (fun _ => rfl) fun _ _ => rfl

theorem offset : Oblivious offset := of_steady (fun _ => rfl) fun _ _ => rfl

theorem peek? : Oblivious peek? := of_steady (fun _ => rfl) fun _ _ => rfl

theorem rounds : Oblivious Surroundings.rounds := of_steady (fun _ => rfl) fun _ _ => rfl

theorem next : Oblivious next := of_steady (fun _ => rfl) fun _ _ => rfl

theorem advance (n : Nat) : Oblivious (advance n) := of_steady (fun _ => rfl) fun _ _ => rfl

theorem moveTo (c : Cursor) : Oblivious (moveTo c) := of_steady (fun _ => rfl) fun _ _ => rfl

theorem allocFrom (kind : NodeKind NodeId) (start : Nat) : Oblivious (allocFrom kind start) :=
  of_steady (fun _ => rfl) fun _ _ => rfl

theorem eat (x : Char) : Oblivious (eat x) := by
  intro r b r₁ hrun flow
  refine ⟨flow, eat_eq_ok_iff.mpr ?_⟩
  rcases eat_eq_ok_iff.mp hrun with ⟨hpeek, rfl, rfl⟩ | ⟨hpeek, rfl, rfl⟩
  · exact .inl ⟨hpeek, rfl, rfl⟩
  · exact .inr ⟨hpeek, rfl, rfl⟩

end Oblivious

end Rules

/-- Surroundings whose expressions do not depend on what was read before. -/
structure Surroundings.Renews (s : Surroundings) : Prop where
  skip : s.skipIn = Grammar.standard.skip
  expression (mode : Mode) (least : UInt8) : Renewing (s.expressionIn mode least)

namespace Surroundings.Renews

variable {s : Surroundings}

theorem inside (h : s.Renews) (mode : Mode) : (s.inside mode).Renews := ⟨h.skip, h.expression⟩

theorem any (h : s.Renews) : Oblivious s.expression := (h.expression s.mode 0).oblivious

theorem trivia (h : s.Renews) : Oblivious s.skip := by
  intro r b r₁ hrun flow
  rw [Surroundings.skip, h.skip] at hrun ⊢
  obtain ⟨c, hskips, rfl⟩ := Grammar.skip_eq_ok_iff.mp hrun
  exact ⟨flow, Grammar.skip_eq_ok_iff.mpr ⟨c, hskips, rfl⟩⟩

theorem expect (h : s.Renews) (x : Char) : Oblivious (s.expect x) := by
  refine h.trivia.bind fun _ => .bind .cursor fun here => .bind (.eat x) fun b => ?_
  cases b with
  | true => exact .pure _
  | false => exact .fail _ _

theorem expectClose (h : s.Renews) (opener : Span) (opening closing : Char) :
    Oblivious (s.expectClose opener opening closing) := by
  refine h.trivia.bind fun _ => .bind .cursor fun here => .bind (.eat closing) fun b => ?_
  cases b with
  | true => exact .pure _
  | false =>
      simp only [Bool.false_eq_true, if_false]
      split
      · exact .fail _ _
      · exact .fail _ _

theorem items (h : s.Renews) (opener : Span) (opening closing : Char) (k : Nat)
    (found : List NodeId) : Oblivious (s.items opener opening closing k found) := by
  induction k generalizing found with
  | zero => exact .fail _ _
  | succ k ih =>
      rw [Surroundings.items]
      refine h.any.bind fun item => h.trivia.bind fun _ => .bind (.eat ',') fun b => ?_
      cases b with
      | true => exact ih _
      | false => exact (h.expectClose opener opening closing).bind fun _ => .pure _

theorem delimited (h : s.Renews) (mode : Mode) (opener : Span) (opening closing : Char)
    (construct : Construct) : Oblivious (s.delimited mode opener opening closing construct) := by
  refine .within ((h.inside mode).trivia.bind fun _ => .bind (.eat closing) fun b => ?_)
  cases b with
  | true => exact .pure _
  | false => exact .bind .rounds fun k => (h.inside mode).items opener opening closing k []

theorem condition (h : s.Renews) : Oblivious s.condition :=
  (h.expect '(').bind fun opener => (h.inside .group).any.bind fun _ =>
    ((h.inside .group).expectClose opener '(' ')').bind fun _ => .pure _

theorem skipLines (h : s.Renews) (k : Nat) : Oblivious (s.skipLines k) := by
  induction k with
  | zero => exact .pure _
  | succ k ih =>
      refine .bind (.eat '\n') fun b => ?_
      cases b with
      | true => exact h.trivia.bind fun _ => ih
      | false => exact .pure _

theorem eatWord (h : s.Renews) (word : List Char) : Oblivious (s.eatWord word) := by
  refine .bind .cursor fun before => h.trivia.bind fun _ => .bind .rounds fun k =>
    (h.skipLines k).bind fun _ => .bind .cursor fun here => ?_
  split
  · exact .bind (.advance _) fun _ => .pure _
  · exact .bind (.moveTo _) fun _ => .pure _

/-- A sequence of statements is the same whatever stood in front of it. -/
theorem statementList (h : s.Renews) (close : Option Char) (k : Nat) (found : List Statement) :
    Oblivious (s.statementList close k found) := by
  induction k generalizing found with
  | zero => exact .bind .cursor fun c => .fail _ _
  | succ k ih =>
      rw [Surroundings.statementList]
      refine h.trivia.bind fun _ => .bind .peek? fun c => ?_
      cases c with
      | none => exact .pure _
      | some c =>
          dsimp only
          split
          · exact .pure _
          · split
            · exact .bind .next fun _ => ih found
            · refine Renewing.oblivious (Renewing.bind ?_ _)
              intro r root r₁ hrun flow
              exact within_eq_ok_iff.mpr
                (h.expression s.mode 0 r root r₁ (within_eq_ok_iff.mp hrun) flow)

/-! ### Forms -/

theorem keyword {word : List Char} {parts : Surroundings → Reading (NodeKind NodeId)}
    (hparts : Oblivious (parts s)) : Oblivious ((Form.keyword word parts).read s) :=
  .bind .offset fun _ => .bind (.advance _) fun _ => hparts.bind fun _ => .allocFrom _ _

theorem branch (h : s.Renews) : Oblivious (Form.branch.read s) := by
  refine keyword (.within (h.condition.bind fun _ => h.any.bind fun _ =>
    (h.eatWord _).bind fun b => ?_))
  cases b with
  | true => exact h.any.bind fun _ => .pure _
  | false => exact .pure _

theorem whileLoop (h : s.Renews) : Oblivious (Form.whileLoop.read s) :=
  keyword (.within (h.condition.bind fun _ => h.any.bind fun _ => .pure _))

theorem headPart (h : s.Renews) (close : Char) : Oblivious (Form.headPart s close) := by
  refine h.trivia.bind fun _ => .bind .peek? fun c => ?_
  split
  · exact .pure _
  · exact h.any

theorem forLoop (h : s.Renews) : Oblivious (Form.forLoop.read s) := by
  have head := h.inside .group
  exact keyword (.within (h.trivia.bind fun _ => (h.expect '(').bind fun opener =>
    (head.headPart ';').bind fun _ => (head.expect ';').bind fun _ =>
    (head.headPart ';').bind fun _ => (head.expect ';').bind fun _ =>
    (head.headPart ')').bind fun _ => (head.expectClose opener '(' ')').bind fun _ =>
    h.any.bind fun _ => .pure _))

theorem number : Oblivious (Form.number.read s) := by
  refine .bind .cursor fun start => .bind (.advance _) fun _ => .bind .cursor fun c => ?_
  split
  · exact .bind .next fun _ => .allocFrom _ _
  · exact .allocFrom _ _

theorem text : Oblivious (Form.text.read s) := by
  refine .bind .cursor fun start => ?_
  split
  · exact .bind (.advance _) fun _ => .allocFrom _ _
  · exact .within (.fail _ _)

theorem group (h : s.Renews) : Oblivious (Form.group.read s) := by
  refine .bind .cursor fun start => .bind .next fun _ =>
    (h.delimited .group start.peekSpan '(' ')' .group).bind fun items => ?_
  split
  · exact .pure _
  · exact .allocFrom _ _

theorem matrixRows (h : s.Renews) (opener : Span) (k : Nat) (row : List NodeId)
    (rows : List (List NodeId)) : Oblivious (Form.matrixRows s opener k row rows) := by
  induction k generalizing row rows with
  | zero => exact .fail _ _
  | succ k ih =>
      rw [Form.matrixRows]
      refine h.trivia.bind fun _ => .bind .peek? fun c => ?_
      split
      · exact .fail _ _
      · exact .bind .next fun _ => .pure _
      · split
        · exact .bind .next fun _ => ih _ _
        · split
          · exact .bind .next fun _ => ih _ _
          · exact h.any.bind fun _ => ih _ _

theorem matrix (h : s.Renews) : Oblivious (Form.matrix.read s) :=
  .bind .cursor fun _ => .bind .next fun _ =>
    Oblivious.bind (.within (.bind .rounds fun k => (h.inside .matrix).matrixRows _ k [] []))
      fun _ => .allocFrom _ _

theorem abs (h : s.Renews) : Oblivious (Form.abs.read s) := by
  refine .bind .cursor fun start => .bind .next fun _ =>
    Oblivious.bind (.within ?_) fun _ => .allocFrom _ _
  exact (h.inside .abs).any.bind fun _ =>
    ((h.inside .abs).expectClose start.peekSpan '|' '|').bind fun _ => .pure _

theorem block (h : s.Renews) : Oblivious (Form.block.read s) := by
  refine .bind .cursor fun start => .bind .next fun _ =>
    Oblivious.bind (.within ?_) fun _ => .allocFrom _ _
  refine Oblivious.bind (.bind .rounds fun k => (h.inside .block).statementList _ k []) fun _ => ?_
  exact ((h.inside .block).expectClose start.peekSpan '\x7b' '\x7d').bind fun _ => .pure _

theorem form (h : s.Renews) {f : Nat × Form} (hf : f ∈ Form.standard) :
    Oblivious (f.2.read s) := by
  simp only [Form.standard, List.mem_cons, List.not_mem_nil, or_false] at hf
  rcases hf with rfl | rfl | rfl | rfl | rfl | rfl | rfl | rfl | rfl | rfl | rfl | rfl | rfl
  · exact h.branch
  · exact h.whileLoop
  · exact h.forLoop
  · exact keyword (.pure _)
  · exact .bind .offset fun _ => .bind .next fun _ => .allocFrom _ _
  · exact number
  · exact text
  · exact .bind .cursor fun _ => .bind (.moveTo _) fun _ => .allocFrom _ _
  · exact h.group
  · exact h.matrix
  · exact h.abs
  · exact .bind .cursor fun _ => .bind .next fun _ =>
      (h.expression s.mode _).oblivious.bind fun _ => .allocFrom _ _
  · exact h.block

end Surroundings.Renews

namespace Grammar

/-- Reading an operand renews what is remembered of it. -/
theorem operand_renewing {s : Surroundings} (h : s.Renews) : Renewing (standard.operand s) := by
  intro r id r₁ hrun flow
  obtain ⟨b, r₂, hskip, form, hform, r₃, hread, rfl⟩ := operand_eq_ok_iff.mp hrun
  obtain ⟨⟨priority, hmem⟩, -⟩ := findForm?_eq_some hform
  obtain ⟨flow₂, hskip'⟩ := h.trivia r b r₂ hskip flow
  obtain ⟨flow₃, hread'⟩ := h.form hmem r₂ id r₃ hread flow₂
  exact operand_eq_ok_iff.mpr
    ⟨b, r₂.flowing flow₂, hskip', form, hform, r₃.flowing flow₃, hread', rfl⟩

theorem standard_renews (mode : Mode) (fuel : Nat) :
    Surroundings.Renews ⟨mode, standard.skip, standard.expression fuel⟩ := by
  induction fuel generalizing mode with
  | zero => exact ⟨rfl, fun mode least r id r₁ hrun => absurd hrun (fail_ne_ok (r := r))⟩
  | succ fuel ih =>
      refine ⟨rfl, fun mode least => ?_⟩
      change Renewing (standard.expression (fuel + 1) mode least)
      rw [expression]
      exact (operand_renewing (ih mode)).bind _

end Grammar

end MatrixScript
