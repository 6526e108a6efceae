import MatrixScript.Proofs.Extension.Tables
import MatrixScript.Proofs.Layout.Positions

/-!
# Steps that do the same within a text

Two steps coincide within a text if they have the same outcome, failures included, at every place of
it, and do not leave it. What a reader remembers of its last operand matters as well: an operator
that is offered has to be one that there was from the start. The steps that forms share coincide as
long as the surroundings do. A form or an operator sees the grammar only through its surroundings,
so the standard ones, which the extended grammar still has, coincide as well.
-/

namespace MatrixScript

open Reading

/-- The reader is somewhere in the text, and what its last operand offers is a standard operator. -/
structure Reader.Stands (text : List Char) (r : Reader) : Prop where
  cursor : r.cursor.In text
  premise : ∀ p, r.premise = some p → (Grammar.standard.operator? p.1).isSome = true

/-- Where a reader stands, both steps do the same. They leave it standing, and what they give has
the property. -/
def Coincide {α : Type} (text : List Char) (P : α → Prop) (f f' : Reading α) : Prop :=
  ∀ r, r.Stands text → f' r = f r ∧ ∀ a r₁, f r = .ok (a, r₁) → r₁.Stands text ∧ P a

variable {text : List Char} {α β : Type} {P : α → Prop} {Q : β → Prop} {f f' : Reading α}
  {c d : Cursor}

theorem Cursor.In.rest (h : c.In text) : c.rest <:+ text := by
  obtain ⟨w, hrest, -⟩ := h
  exact ⟨w, hrest.symm⟩

theorem Cursor.In.mem_of_peek? (h : c.In text) {x : Char} (hx : c.peek? = some x) : x ∈ text :=
  h.rest.subset (List.mem_of_head? hx)

theorem Reader.Stands.movedTo {r : Reader} (h : r.Stands text) (hc : c.In text) :
    (r.movedTo c).Stands text :=
  ⟨hc, h.premise⟩

namespace Coincide

theorem bind {g g' : α → Reading β} (hf : Coincide text P f f')
    (hg : ∀ a, P a → Coincide text Q (g a) (g' a)) : Coincide text Q (f >>= g) (f' >>= g') := by
  intro r hr
  obtain ⟨hsame, hleaves⟩ := hf r hr
  change (f' r >>= fun p => g' p.1 p.2) = (f r >>= fun p => g p.1 p.2)
    ∧ ∀ b r₂, (f r >>= fun p => g p.1 p.2) = .ok (b, r₂) → _
  rw [hsame]
  cases hrun : f r with
  | error e => exact ⟨rfl, nofun⟩
  | ok p =>
      obtain ⟨hstands, ha⟩ := hleaves p.1 p.2 hrun
      exact hg p.1 ha p.2 hstands

theorem within {construct : Construct} (h : Coincide text P f f') :
    Coincide text P (within construct f) (within construct f') := by
  intro r hr
  obtain ⟨hsame, hleaves⟩ := h r hr
  refine ⟨?_, fun a r₁ hrun => hleaves a r₁ (within_eq_ok_iff.mp hrun)⟩
  rw [within_run, within_run, hsame]

theorem fail (fault : ParseFault) (span : Span) :
    Coincide text P (Reading.fail fault span) (Reading.fail fault span) :=
  fun _ _ => ⟨rfl, nofun⟩

/-- One step, of which it is known where it leads. -/
theorem of_leads {step : Reader → α × Reader} (hf : ∀ r, f r = .ok (step r))
    (hstep : ∀ r, r.Stands text → (step r).2.Stands text ∧ P (step r).1) :
    Coincide text P f f := by
  refine fun r hr => ⟨rfl, fun a r₁ hrun => ?_⟩
  have hleads := hstep r hr
  rw [hf] at hrun
  rw [Except.ok.inj hrun] at hleads
  exact hleads

theorem pure {a : α} (ha : P a) : Coincide text P (pure a) (pure a) :=
  of_leads (fun _ => rfl) fun _ hr => ⟨hr, ha⟩

theorem get : Coincide text (Reader.Stands text) get get :=
  of_leads (fun _ => rfl) fun _ hr => ⟨hr, hr⟩

theorem cursor : Coincide text (Cursor.In text) cursor cursor :=
  of_leads (fun _ => rfl) fun _ hr => ⟨hr, hr.cursor⟩

theorem offset : Coincide text (fun _ => True) offset offset :=
  of_leads (fun _ => rfl) fun _ hr => ⟨hr, trivial⟩

theorem peek? : Coincide text (fun _ => True) peek? peek? :=
  of_leads (fun _ => rfl) fun _ hr => ⟨hr, trivial⟩

theorem kind? (id : NodeId) : Coincide text (fun _ => True) (kind? id) (kind? id) :=
  of_leads (fun _ => rfl) fun _ hr => ⟨hr, trivial⟩

theorem spanOf (id : NodeId) : Coincide text (fun _ => True) (spanOf id) (spanOf id) :=
  of_leads (fun _ => rfl) fun _ hr => ⟨hr, trivial⟩

theorem rounds : Coincide text (fun _ => True) Surroundings.rounds Surroundings.rounds :=
  of_leads (fun _ => rfl) fun _ hr => ⟨hr, trivial⟩

theorem moveTo (hc : c.In text) : Coincide text (fun _ => True) (moveTo c) (moveTo c) :=
  of_leads (fun _ => rfl) fun _ hr => ⟨hr.movedTo hc, trivial⟩

theorem next : Coincide text (fun _ => True) next next :=
  of_leads (fun _ => rfl) fun r hr =>
    ⟨hr.movedTo (hr.cursor.trans r.cursor.reaches_next), trivial⟩

theorem advance (n : Nat) : Coincide text (fun _ => True) (advance n) (advance n) :=
  of_leads (fun _ => rfl) fun r hr =>
    ⟨hr.movedTo (hr.cursor.trans (r.cursor.reaches_advance n)), trivial⟩

theorem alloc (kind : NodeKind NodeId) (span : Span) :
    Coincide text (fun _ => True) (alloc kind span) (alloc kind span) :=
  of_leads (fun _ => rfl) fun _ hr => ⟨⟨hr.cursor, hr.premise⟩, trivial⟩

theorem allocFrom (kind : NodeKind NodeId) (start : Nat) :
    Coincide text (fun _ => True) (allocFrom kind start) (allocFrom kind start) :=
  cursor.bind fun _ _ => alloc kind _

theorem eat (x : Char) : Coincide text (fun _ => True) (eat x) (eat x) := by
  refine cursor.bind fun c hc => ?_
  cases hx : c.eat? x with
  | none => exact pure trivial
  | some after =>
      unfold Cursor.eat? at hx
      split at hx
      · obtain rfl := Option.some.inj hx
        exact (moveTo (hc.trans c.reaches_next)).bind fun _ _ => pure trivial
      · cases hx

end Coincide

/-! ### Surroundings -/

/-- The surroundings do the same within the text. -/
structure Surroundings.Alike (text : List Char) (s s' : Surroundings) : Prop where
  mode : s'.mode = s.mode
  skipIn (mode : Mode) : Coincide text (fun _ => True) (s.skipIn mode) (s'.skipIn mode)
  expressionIn (mode : Mode) (least : UInt8) :
    Coincide text (fun _ => True) (s.expressionIn mode least) (s'.expressionIn mode least)

namespace Surroundings.Alike

variable {s s' : Surroundings}

theorem inside (h : s.Alike text s') (mode : Mode) : (s.inside mode).Alike text (s'.inside mode) :=
  ⟨rfl, h.skipIn, h.expressionIn⟩

theorem skip (h : s.Alike text s') : Coincide text (fun _ => True) s.skip s'.skip := by
  unfold Surroundings.skip
  rw [h.mode]
  exact h.skipIn s.mode

theorem expression (h : s.Alike text s') :
    Coincide text (fun _ => True) s.expression s'.expression := by
  unfold Surroundings.expression
  rw [h.mode]
  exact h.expressionIn s.mode 0

theorem expect (h : s.Alike text s') (x : Char) :
    Coincide text (fun _ => True) (s.expect x) (s'.expect x) := by
  refine h.skip.bind fun _ _ => Coincide.cursor.bind fun here _ =>
    (Coincide.eat x).bind fun b _ => ?_
  cases b with
  | true => exact .pure trivial
  | false => exact .fail _ _

theorem expectClose (h : s.Alike text s') (opener : Span) (opening closing : Char) :
    Coincide text (fun _ => True) (s.expectClose opener opening closing)
      (s'.expectClose opener opening closing) := by
  refine h.skip.bind fun _ _ => Coincide.cursor.bind fun here _ =>
    (Coincide.eat closing).bind fun b _ => ?_
  cases b with
  | true => exact .pure trivial
  | false =>
      simp only [Bool.false_eq_true, if_false]
      split
      · exact .fail _ _
      · exact .fail _ _

theorem items (h : s.Alike text s') (opener : Span) (opening closing : Char) (fuel : Nat)
    (found : List NodeId) :
    Coincide text (fun _ => True) (s.items opener opening closing fuel found)
      (s'.items opener opening closing fuel found) := by
  induction fuel generalizing found with
  | zero => exact .fail _ _
  | succ fuel ih =>
      rw [Surroundings.items, Surroundings.items]
      refine h.expression.bind fun item _ => h.skip.bind fun _ _ =>
        (Coincide.eat ',').bind fun b _ => ?_
      cases b with
      | true => exact ih _
      | false => exact (h.expectClose opener opening closing).bind fun _ _ => .pure trivial

theorem delimited (h : s.Alike text s') (mode : Mode) (opener : Span) (opening closing : Char)
    (construct : Construct) :
    Coincide text (fun _ => True) (s.delimited mode opener opening closing construct)
      (s'.delimited mode opener opening closing construct) := by
  refine .within ((h.inside mode).skip.bind fun _ _ => (Coincide.eat closing).bind fun b _ => ?_)
  cases b with
  | true => exact .pure trivial
  | false =>
      exact Coincide.rounds.bind fun fuel _ => (h.inside mode).items opener opening closing fuel []

theorem condition (h : s.Alike text s') :
    Coincide text (fun _ => True) s.condition s'.condition :=
  (h.expect '(').bind fun opener _ => (h.inside .group).expression.bind fun _ _ =>
    ((h.inside .group).expectClose opener '(' ')').bind fun _ _ => .pure trivial

theorem skipLines (h : s.Alike text s') (fuel : Nat) :
    Coincide text (fun _ => True) (s.skipLines fuel) (s'.skipLines fuel) := by
  induction fuel with
  | zero => exact .pure trivial
  | succ fuel ih =>
      refine (Coincide.eat '\n').bind fun b _ => ?_
      cases b with
      | true => exact h.skip.bind fun _ _ => ih
      | false => exact .pure trivial

theorem eatWord (h : s.Alike text s') (word : List Char) :
    Coincide text (fun _ => True) (s.eatWord word) (s'.eatWord word) := by
  refine Coincide.cursor.bind fun before hbefore => h.skip.bind fun _ _ =>
    Coincide.rounds.bind fun fuel _ => (h.skipLines fuel).bind fun _ _ =>
    Coincide.cursor.bind fun here _ => ?_
  split
  · exact (Coincide.advance _).bind fun _ _ => .pure trivial
  · exact (Coincide.moveTo hbefore).bind fun _ _ => .pure trivial

theorem statementEnd (close : Option Char) :
    Coincide text (fun _ => True) (Surroundings.statementEnd close)
      (Surroundings.statementEnd close) := by
  refine Coincide.cursor.bind fun c _ => ?_
  split
  · exact .pure trivial
  · exact Coincide.next.bind fun _ _ => .pure trivial
  · exact Coincide.next.bind fun _ _ => .pure trivial
  · refine Coincide.get.bind fun r _ => ?_
    split
    · exact .pure trivial
    · exact .within (.fail _ _)

theorem statementList (h : s.Alike text s') (close : Option Char) (fuel : Nat)
    (found : List Statement) :
    Coincide text (fun _ => True) (s.statementList close fuel found)
      (s'.statementList close fuel found) := by
  induction fuel generalizing found with
  | zero => exact Coincide.cursor.bind fun c _ => .fail _ _
  | succ fuel ih =>
      rw [Surroundings.statementList, Surroundings.statementList]
      refine h.skip.bind fun _ _ => Coincide.peek?.bind fun c _ => ?_
      cases c with
      | none => exact .pure trivial
      | some c =>
          dsimp only
          split
          · exact .pure trivial
          · split
            · exact Coincide.next.bind fun _ _ => ih found
            · exact h.expression.within.bind fun root _ => h.skip.bind fun _ _ =>
                (statementEnd close).bind fun muted _ => ih _

theorem statements (h : s.Alike text s') (close : Option Char) :
    Coincide text (fun _ => True) (s.statements close) (s'.statements close) :=
  Coincide.rounds.bind fun fuel _ => h.statementList close fuel []

end Surroundings.Alike

/-! ### Forms and operators -/

section Forms

variable {s s' : Surroundings}

namespace Form

theorem keyword_coincide {word : List Char} {parts : Surroundings → Reading (NodeKind NodeId)}
    (hparts : Coincide text (fun _ => True) (parts s) (parts s')) :
    Coincide text (fun _ => True) ((keyword word parts).read s) ((keyword word parts).read s') :=
  Coincide.offset.bind fun _ _ => (Coincide.advance _).bind fun _ _ =>
    hparts.bind fun _ _ => .allocFrom _ _

theorem branch_coincide (h : s.Alike text s') :
    Coincide text (fun _ => True) (branch.read s) (branch.read s') := by
  refine keyword_coincide (.within (h.condition.bind fun _ _ => h.expression.bind fun _ _ =>
    (h.eatWord _).bind fun b _ => ?_))
  cases b with
  | true => exact h.expression.bind fun _ _ => .pure trivial
  | false => exact .pure trivial

theorem whileLoop_coincide (h : s.Alike text s') :
    Coincide text (fun _ => True) (whileLoop.read s) (whileLoop.read s') :=
  keyword_coincide (.within (h.condition.bind fun _ _ => h.expression.bind fun _ _ =>
    .pure trivial))

theorem headPart_coincide (h : s.Alike text s') (close : Char) :
    Coincide text (fun _ => True) (headPart s close) (headPart s' close) := by
  refine h.skip.bind fun _ _ => Coincide.peek?.bind fun c _ => ?_
  split
  · exact .pure trivial
  · exact h.expression

theorem forLoop_coincide (h : s.Alike text s') :
    Coincide text (fun _ => True) (forLoop.read s) (forLoop.read s') := by
  have hhead := h.inside .group
  exact keyword_coincide (.within (h.skip.bind fun _ _ => (h.expect '(').bind fun opener _ =>
    (headPart_coincide hhead ';').bind fun _ _ => (hhead.expect ';').bind fun _ _ =>
    (headPart_coincide hhead ';').bind fun _ _ => (hhead.expect ';').bind fun _ _ =>
    (headPart_coincide hhead ')').bind fun _ _ => (hhead.expectClose opener '(' ')').bind
      fun _ _ => h.expression.bind fun _ _ => .pure trivial))

theorem everything_coincide :
    Coincide text (fun _ => True) (everything.read s) (everything.read s') :=
  Coincide.offset.bind fun _ _ => Coincide.next.bind fun _ _ => .allocFrom _ _

theorem number_coincide : Coincide text (fun _ => True) (number.read s) (number.read s') := by
  refine Coincide.cursor.bind fun start _ => (Coincide.advance _).bind fun _ _ =>
    Coincide.cursor.bind fun c _ => ?_
  split
  · exact Coincide.next.bind fun _ _ => .allocFrom _ _
  · exact .allocFrom _ _

theorem text_coincide : Coincide text (fun _ => True) (Form.text.read s) (Form.text.read s') := by
  refine Coincide.cursor.bind fun start _ => ?_
  split
  · exact (Coincide.advance _).bind fun _ _ => .allocFrom _ _
  · exact .within (.fail _ _)

theorem identifier_coincide :
    Coincide text (fun _ => True) (identifier.read s) (identifier.read s') :=
  Coincide.cursor.bind fun start hstart =>
    (Coincide.moveTo (hstart.trans (start.reaches_takeWhile isWordChar))).bind fun _ _ =>
      .allocFrom _ _

theorem group_coincide (h : s.Alike text s') :
    Coincide text (fun _ => True) (group.read s) (group.read s') := by
  refine Coincide.cursor.bind fun start _ => Coincide.next.bind fun _ _ =>
    (h.delimited .group start.peekSpan '(' ')' .group).bind fun items _ => ?_
  split
  · exact .pure trivial
  · exact .allocFrom _ _

theorem matrixRows_coincide (h : s.Alike text s') (opener : Span) (fuel : Nat) (row : List NodeId)
    (rows : List (List NodeId)) :
    Coincide text (fun _ => True) (matrixRows s opener fuel row rows)
      (matrixRows s' opener fuel row rows) := by
  induction fuel generalizing row rows with
  | zero => exact .fail _ _
  | succ fuel ih =>
      rw [matrixRows, matrixRows]
      refine h.skip.bind fun _ _ => Coincide.peek?.bind fun c _ => ?_
      split
      · exact .fail _ _
      · exact Coincide.next.bind fun _ _ => .pure trivial
      · split
        · exact Coincide.next.bind fun _ _ => ih _ _
        · split
          · exact Coincide.next.bind fun _ _ => ih _ _
          · exact h.expression.bind fun _ _ => ih _ _

theorem matrix_coincide (h : s.Alike text s') :
    Coincide text (fun _ => True) (matrix.read s) (matrix.read s') :=
  Coincide.cursor.bind fun _ _ => Coincide.next.bind fun _ _ =>
    (Coincide.rounds.bind fun fuel _ =>
      matrixRows_coincide (h.inside .matrix) _ fuel [] []).within.bind fun _ _ => .allocFrom _ _

theorem abs_coincide (h : s.Alike text s') :
    Coincide text (fun _ => True) (abs.read s) (abs.read s') := by
  refine Coincide.cursor.bind fun start _ => Coincide.next.bind fun _ _ => ?_
  refine Coincide.bind (P := fun _ => True) (.within ?_) fun _ _ => .allocFrom _ _
  exact (h.inside .abs).expression.bind fun _ _ =>
    ((h.inside .abs).expectClose start.peekSpan '|' '|').bind fun _ _ => .pure trivial

theorem leading_coincide (h : s.Alike text s') :
    Coincide text (fun _ => True) (leading.read s) (leading.read s') := by
  refine Coincide.cursor.bind fun start _ => Coincide.next.bind fun _ _ => ?_
  rw [h.mode]
  exact (h.expressionIn s.mode _).bind fun _ _ => .allocFrom _ _

theorem block_coincide (h : s.Alike text s') :
    Coincide text (fun _ => True) (block.read s) (block.read s') := by
  refine Coincide.cursor.bind fun start _ => Coincide.next.bind fun _ _ => ?_
  refine Coincide.bind (P := fun _ => True) (.within ?_) fun _ _ => .allocFrom _ _
  exact ((h.inside .block).statements (some '\x7d')).bind fun _ _ =>
    ((h.inside .block).expectClose start.peekSpan '\x7b' '\x7d').bind fun _ _ => .pure trivial

theorem standard_coincide (h : s.Alike text s') {f : Nat × Form} (hf : f ∈ Form.standard) :
    Coincide text (fun _ => True) (f.2.read s) (f.2.read s') := by
  simp only [Form.standard, List.mem_cons, List.not_mem_nil, or_false] at hf
  rcases hf with rfl | rfl | rfl | rfl | rfl | rfl | rfl | rfl | rfl | rfl | rfl | rfl | rfl
  · exact branch_coincide h
  · exact whileLoop_coincide h
  · exact forLoop_coincide h
  · exact keyword_coincide (.pure trivial)
  · exact everything_coincide
  · exact number_coincide
  · exact text_coincide
  · exact identifier_coincide
  · exact group_coincide h
  · exact matrix_coincide h
  · exact abs_coincide h
  · exact leading_coincide h
  · exact block_coincide h

/-- Only numbers offer an operator, and it is a standard one. -/
theorem standard_premise {f : Nat × Form} (hf : f ∈ Form.standard) {symbol : List Char}
    (hsymbol : f.2.premise = some symbol) :
    (Grammar.standard.operator? symbol).isSome = true := by
  have hnumber : symbol = ['*'] := by
    simp only [Form.standard, List.mem_cons, List.not_mem_nil, or_false] at hf
    rcases hf with rfl | rfl | rfl | rfl | rfl | rfl | rfl | rfl | rfl | rfl | rfl | rfl | rfl
    all_goals
      cases hsymbol
      try rfl
  rw [hnumber]
  rfl

end Form

/-- A standard operator whose symbol has been passed. -/
theorem Operator.standard_coincide (h : s.Alike text s') {op : Operator}
    (hop : op ∈ Grammar.standard.operators) (left : NodeId) (symbolSpan : Span) :
    Coincide text (fun _ => True) (Grammar.applyFixity s op left symbolSpan)
      (Grammar.applyFixity s' op left symbolSpan) := by
  have hjoining {symbol : List Char} {precedence : UInt8} {assoc : Assoc}
      {build : NodeId → NodeId → Reading (NodeKind NodeId)}
      (hbuild : ∀ right, Coincide text (fun _ => True) (build left right) (build left right)) :
      Coincide text (fun _ => True)
        (Grammar.applyFixity s ⟨symbol, precedence, .joining assoc build⟩ left symbolSpan)
        (Grammar.applyFixity s' ⟨symbol, precedence, .joining assoc build⟩ left symbolSpan) := by
    unfold Grammar.applyFixity
    dsimp only
    rw [h.mode]
    exact (h.expressionIn s.mode _).bind fun right _ => hbuild right
  rcases standard_cases hop with ⟨symbol, o, rfl⟩ | rfl | rfl | rfl | ⟨symbol, p, a, o, rfl⟩
    | ⟨symbol, p, o, rfl⟩
  · refine hjoining fun right => Coincide.get.bind fun r _ => ?_
    dsimp only
    split
    · exact .fail _ _
    · split
      · exact .pure trivial
      · exact .within (.fail _ _)
  · refine hjoining fun right => Coincide.get.bind fun r _ => ?_
    dsimp only
    split
    · exact .pure trivial
    · exact (Coincide.spanOf left).bind fun span _ => .within (.fail _ _)
  · exact hjoining fun right => .pure trivial
  · exact (h.delimited .arguments symbolSpan '(' ')' .arguments).bind fun args _ => .pure trivial
  · exact hjoining fun right => .pure trivial
  · exact .pure trivial

end Forms

end MatrixScript
