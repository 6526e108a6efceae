import MatrixScript.Proofs.Embedded.Lexical
import MatrixScript.Proofs.Progress.Steps
import MatrixScript.Proofs.Reading.Operators

/-!
# Forms that make progress

A standard form passes something of any text that it accepts, before it reads anything else.

Reading an expression passes something, wherever it starts behind a given place. So the rounds of a
loop suffice that reads an expression or passes a character in each of them. Looking for a keyword
goes back to where it started, and no operand ends in between.
-/

namespace MatrixScript

open Reading

/-- What may be used around a form in two readings at once, the second with a record. -/
structure Twins extends Surroundings where
  trackedIn : Mode → UInt8 → Tracked NodeId

namespace Twins

def tracked (s : Twins) : Surroundings Tracked :=
  ⟨s.mode, fun mode => MonadReading.step (s.skipIn mode), s.trackedIn⟩

@[simp] theorem tracked_mode (s : Twins) : s.tracked.mode = s.mode := rfl

def inside (s : Twins) (mode : Mode) : Twins := { s with mode }

end Twins

/-! ### Sequences -/

/-- Statements can be read wherever this holds of the reader: skipping does not go back, and an
expression passes something. -/
structure Statements (P : Reader → Trail → Prop) (s : Twins) : Prop where
  onward : Onward P
  passed {r r₁ : Reader} {trail trail₁ : Trail} : P r trail → Past r.cursor r₁ trail₁ → P r₁ trail₁
  skip : Forward s.skip
  expression {r : Reader} {trail : Trail} : P r trail →
    Watch r trail s.toSurroundings.expression s.tracked.expression fun _ => Past r.cursor

namespace Statements

variable {P : Reader → Trail → Prop} {s : Twins} {r : Reader} {trail : Trail}

/-- By induction on the rounds: a round passes a separator or reads an expression. -/
theorem list (hs : Statements P s) (close : Option Char) {fuel : Nat} (found : List Statement)
    (h : P r trail) (hfuel : r.cursor.rest.length < fuel) :
    Watch r trail (s.toSurroundings.statementList close fuel found)
      (s.tracked.statementList close fuel found) fun _ => P := by
  induction fuel generalizing found r trail with
  | zero => exact absurd hfuel (Nat.not_lt_zero _)
  | succ fuel ih =>
      have hP := hs.onward.below (fuel + 1)
      refine (Shadows.step hP hs.skip _ _ ⟨h, hfuel⟩).bind fun _ r₁ trail₁ hskip =>
        Watch.step_bind rfl ?_
      obtain ⟨hskipped, hbelow⟩ := hP.moved hskip (.refl _) rfl
      have hround {r₂ : Reader} {trail₂ : Trail} (h₂ : Past r₁.cursor r₂ trail₂) :
          P r₂ trail₂ ∧ r₂.cursor.rest.length < fuel :=
        ⟨hs.passed hskipped h₂, Nat.lt_of_lt_of_le h₂.shorter (Nat.le_of_lt_succ hbelow)⟩
      cases hx : r₁.cursor.peek? with
      | none => exact Shadows.pure _ _ _ hskipped
      | some x =>
          dsimp only
          split
          · exact Shadows.pure _ _ _ hskipped
          · split
            · obtain ⟨hnext, hleft⟩ := hround ((hs.onward.kept hskipped).past_next hx)
              exact Watch.step_bind rfl (ih found hnext hleft)
            · have hQ := Onward.past r₁.cursor
              refine (hs.expression hskipped).within.bind fun root _ _ hroot =>
                (Shadows.step hQ hs.skip _ _ hroot).bind fun _ _ _ hskip =>
                (Shadows.step hQ (.statementEnd close) _ _ hskip).bind fun muted _ _ hend => ?_
              obtain ⟨hend, hleft⟩ := hround hend
              exact ih _ hend hleft

theorem shadows (hs : Statements P s) (close : Option Char) :
    Shadows P (s.toSurroundings.statements close) (s.tracked.statements close) := by
  intro r trail h
  exact Watch.step_bind rfl (hs.list close [] (hs.onward.moved h (.refl _) rfl)
    (Nat.lt_succ_self _))

end Statements

/-- Surroundings that can be used behind a place: skipping does not go back, and expressions pass
something. -/
structure Twins.Sound (c : Cursor) (s : Twins) : Prop where
  skipIn (mode : Mode) : Forward (s.skipIn mode)
  expressionIn (mode : Mode) (least : UInt8) {r : Reader} {trail : Trail} : Past c r trail →
    Watch r trail (s.expressionIn mode least) (s.trackedIn mode least) fun _ => Past r.cursor

namespace Twins.Sound

variable {c : Cursor} {s : Twins} {P : Reader → Trail → Prop} {r : Reader}
  {trail : Trail}

theorem inside (hs : s.Sound c) (mode : Mode) : (s.inside mode).Sound c :=
  ⟨hs.skipIn, hs.expressionIn⟩

theorem beyond (hs : s.Sound c) {d : Cursor} (hd : c.Reaches d) : s.Sound d where
  skipIn := hs.skipIn
  expressionIn mode least _ _ h := hs.expressionIn mode least (h.since hd)

theorem skip (hs : s.Sound c) (hP : Onward P) : Shadows P s.skip s.tracked.skip :=
  .step hP (hs.skipIn s.mode)

theorem shadows (hs : s.Sound c) (mode : Mode) (least : UInt8) :
    Shadows (Past c) (s.expressionIn mode least) (s.trackedIn mode least) :=
  fun _ _ h => (hs.expressionIn mode least h).imp fun _ _ _ => h.trans

theorem expression (hs : s.Sound c) :
    Shadows (Past c) s.toSurroundings.expression s.tracked.expression :=
  hs.shadows s.mode 0

theorem expect (hs : s.Sound c) (hP : Onward P) (x : Char) :
    Shadows P (s.toSurroundings.expect x) (s.tracked.expect x) := by
  refine (hs.skip hP).bind fun _ => (Shadows.step hP .cursor).bind fun here =>
    (Shadows.step hP (.eat x)).bind fun b => ?_
  cases b with
  | true => exact .pure _
  | false => exact .step hP (.fail (by nofun) _)

theorem expectClose (hs : s.Sound c) (hP : Onward P) (opener : Span) (opening closing : Char) :
    Shadows P (s.toSurroundings.expectClose opener opening closing)
      (s.tracked.expectClose opener opening closing) := by
  refine (hs.skip hP).bind fun _ => (Shadows.step hP .cursor).bind fun here =>
    (Shadows.step hP (.eat closing)).bind fun b => ?_
  cases b with
  | true => exact .pure _
  | false =>
      simp only [Bool.false_eq_true, if_false]
      split
      · exact .step hP (.fail (by nofun) _)
      · exact .step hP (.fail (by nofun) _)

/-- By induction on the rounds: the expression of each round leaves fewer characters. -/
theorem items (hs : s.Sound c) (opener : Span) (opening closing : Char) {fuel : Nat}
    (found : List NodeId) (h : Past c r trail) (hfuel : r.cursor.rest.length < fuel) :
    Watch r trail (s.toSurroundings.items opener opening closing fuel found)
      (s.tracked.items opener opening closing fuel found) fun _ => Past c := by
  induction fuel generalizing found r trail with
  | zero => exact absurd hfuel (Nat.not_lt_zero _)
  | succ fuel ih =>
      have hP := Onward.past r.cursor
      refine (hs.expressionIn s.mode 0 h).bind fun item _ _ hitem =>
        (hs.skip hP _ _ hitem).bind fun _ _ _ hskip =>
        (Shadows.step hP (.eat ',') _ _ hskip).bind fun b _ _ heat => ?_
      have hnext := h.trans heat
      cases b with
      | true => exact ih _ hnext (Nat.lt_of_lt_of_le heat.shorter (Nat.le_of_lt_succ hfuel))
      | false =>
          exact (hs.expectClose (.past c) opener opening closing _ _ hnext).bind fun _ =>
            Shadows.pure _

theorem delimited (hs : s.Sound c) (mode : Mode) (opener : Span) (opening closing : Char)
    (construct : Construct) :
    Shadows (Past c) (s.toSurroundings.delimited mode opener opening closing construct)
      (s.tracked.delimited mode opener opening closing construct) := by
  have hP := Onward.past c
  refine .within (((hs.inside mode).skip hP).bind fun _ =>
    (Shadows.step hP (.eat closing)).bind fun b => ?_)
  cases b with
  | true => exact .pure _
  | false =>
      intro r trail h
      refine Watch.step_bind rfl ?_
      exact (hs.inside mode).items opener opening closing [] (hP.moved h (.refl _) rfl)
        (Nat.lt_succ_self _)

theorem condition (hs : s.Sound c) :
    Shadows (Past c) s.toSurroundings.condition s.tracked.condition :=
  (hs.expect (.past c) '(').bind fun opener => (hs.inside .group).expression.bind fun _ =>
    ((hs.inside .group).expectClose (.past c) opener '(' ')').bind fun _ => .pure _

/-- By induction on the rounds: each newline that is passed leaves fewer characters. -/
theorem skipLines (hs : s.Sound c) (hP : Onward P) {fuel : Nat} (h : P r trail)
    (hfuel : r.cursor.rest.length < fuel) :
    Watch r trail (s.toSurroundings.skipLines fuel) (s.tracked.skipLines fuel) fun _ => P := by
  induction fuel generalizing r trail with
  | zero => exact absurd hfuel (Nat.not_lt_zero _)
  | succ fuel ih =>
      by_cases hx : r.cursor.peek? = some '\n'
      · have hlength := Cursor.next_length hx
        refine Watch.step_bind (eat_eq_ok_iff.mpr (.inl ⟨hx, rfl, rfl⟩)) ?_
        have hnext : P (r.movedTo r.cursor.next) (.moved r.cursor.next :: trail) :=
          hP.moved (q := r.movedTo r.cursor.next) h r.cursor.reaches_next rfl
        refine (hs.skip (hP.below fuel) _ _ ⟨hnext, ?_⟩).bind fun _ _ _ hskip =>
          ih hskip.1 hskip.2
        rw [Reader.movedTo_cursor]
        omega
      · exact Watch.step_bind (eat_eq_ok_iff.mpr (.inr ⟨hx, rfl, rfl⟩))
          ⟨rfl, hP.moved h (.refl _) rfl⟩

theorem eatWord (hs : s.Sound c) (word : List Char) :
    Shadows (Past c) (s.toSurroundings.eatWord word) (s.tracked.eatWord word) := by
  intro r trail h
  -- while the newlines are passed, the place to which the cursor may go back is a recent one
  have hP := (Onward.past c).recent r.cursor
  refine Watch.step_bind rfl ?_
  have hstart := hP.moved ⟨h, h.here⟩ (.refl _) rfl
  refine (hs.skip hP _ _ hstart).bind fun _ r₁ _ hskip => Watch.step_bind rfl ?_
  refine (hs.skipLines hP (hP.moved hskip (.refl _) rfl) (Nat.lt_succ_self _)).bind
    fun _ r₂ _ hlines => Watch.step_bind rfl ?_
  have hlines := hP.moved hlines (.refl _) rfl
  split
  · exact (Shadows.step hP (.advance _) _ _ hlines).bind fun _ _ _ hword => ⟨rfl, hword.1⟩
  · refine Watch.step_bind (q := r₂.movedTo r.cursor) rfl ⟨rfl, ?_⟩
    exact ⟨hlines.1.toKept.back rfl hlines.2, h.reaches, h.shorter⟩

theorem statements (hs : s.Sound c) (close : Option Char) :
    Shadows (Past c) (s.toSurroundings.statements close) (s.tracked.statements close) :=
  Statements.shadows ⟨.past c, Past.trans, hs.skipIn s.mode, hs.expressionIn s.mode 0⟩ close

end Twins.Sound

/-! ### Forms -/

/-- A form that passes something wherever it accepts the text, and what it is with a record. -/
def Form.Progresses (form : Form) (form' : Form Tracked) : Prop :=
  ∀ {s : Twins} {r : Reader} {trail : Trail} {flags : Flags}, s.Sound r.cursor →
    Kept r trail → form.accepts r.cursor.rest flags = true →
    Watch r trail (form.read s.toSurroundings) (form'.read s.tracked) fun _ => Past r.cursor

section Rules

variable {α : Type} {r : Reader} {trail : Trail} {s : Twins}

/-- The character that a form is recognised by is passed first. -/
theorem Kept.opened {f : Cursor → Reading α} {t : Cursor → Tracked α} {x : Char}
    (h : Kept r trail) (hx : r.cursor.peek? = some x)
    (hf : Shadows (Past r.cursor) (f r.cursor) (t r.cursor)) :
    Watch r trail (do let start ← cursor; next; f start)
      (do let start ← cursor; next; t start) fun _ => Past r.cursor := by
  refine Watch.step_bind rfl (Watch.step_bind rfl (hf _ _ ?_))
  exact (h.moved (.refl _) rfl).past_next hx

theorem Kept.keyword {word : List Char} {parts : Surroundings → Reading (NodeKind NodeId)}
    {parts' : Surroundings Tracked → Tracked (NodeKind NodeId)} (h : Kept r trail)
    (hword : byteCount word ≠ 0)
    (haccepts : startsWithWord word r.cursor.rest = true)
    (hparts : Shadows (Past r.cursor) (parts s.toSurroundings) (parts' s.tracked)) :
    Watch r trail ((Form.keyword word parts).read s.toSurroundings)
      ((Form.keyword word parts').read s.tracked) fun _ => Past r.cursor := by
  obtain ⟨rest, hrest⟩ := exists_of_startsWithWord haccepts
  have hne : r.cursor.rest ≠ [] := by
    intro hnil
    obtain ⟨rfl, -⟩ := List.append_eq_nil_iff.mp (hrest.symm.trans hnil)
    exact hword rfl
  have hpast := (h.moved (q := r) (.refl _) rfl).past
    (q := r.movedTo (r.cursor.advance (byteCount word))) (r.cursor.reaches_advance _) rfl
    (Cursor.advance_length hword hne)
  refine Watch.step_bind rfl (Watch.step_bind rfl ?_)
  exact (hparts.bind fun kind => .step (.past _) (.allocFrom kind _)) _ _ hpast

end Rules

namespace Form

variable {s : Twins} {c : Cursor}

theorem branch_progresses : Progresses branch branch := by
  intro s r trail flags hs h haccepts
  refine h.keyword (by decide) haccepts (.within (hs.condition.bind fun cond =>
    hs.expression.bind fun yes => (hs.eatWord _).bind fun b => ?_))
  cases b with
  | true => exact hs.expression.bind fun no => .pure _
  | false => exact .pure _

theorem whileLoop_progresses : Progresses whileLoop whileLoop := by
  intro s r trail flags hs h haccepts
  exact h.keyword (by decide) haccepts (.within (hs.condition.bind fun cond =>
    hs.expression.bind fun body => .pure _))

theorem headPart_shadows (hs : s.Sound c) (close : Char) :
    Shadows (Past c) (headPart s.toSurroundings close) (headPart s.tracked close) := by
  refine (hs.skip (.past c)).bind fun _ => (Shadows.step (.past c) .peek?).bind fun x => ?_
  split
  · exact .pure _
  · exact hs.expression

theorem forLoop_progresses : Progresses forLoop forLoop := by
  intro s r trail flags hs h haccepts
  have hP := Onward.past r.cursor
  have hhead := hs.inside .group
  exact h.keyword (by decide) haccepts (.within ((hs.skip hP).bind fun _ =>
    (hs.expect hP '(').bind fun opener => (headPart_shadows hhead ';').bind fun init =>
    (hhead.expect hP ';').bind fun _ => (headPart_shadows hhead ';').bind fun cond =>
    (hhead.expect hP ';').bind fun _ => (headPart_shadows hhead ')').bind fun step =>
    (hhead.expectClose hP opener '(' ')').bind fun _ => hs.expression.bind fun body => .pure _))

theorem last_progresses : Progresses last last := fun _ h haccepts =>
  h.keyword (by decide) haccepts (.pure _)

theorem everything_progresses : Progresses everything everything := by
  intro s r trail flags hs h haccepts
  have hx : r.cursor.peek? = some ':' := colon_of_accepts haccepts
  refine Watch.step_bind rfl (Watch.step_bind rfl ?_)
  exact Shadows.step (.past _) (.allocFrom _ _) _ _ ((h.moved (.refl _) rfl).past_next hx)

theorem number_progresses : Progresses number number := by
  intro s r trail flags hs h haccepts
  obtain ⟨hlength, hne⟩ := numberLength_pos haccepts
  have hP := Onward.past r.cursor
  have hpast := (h.moved (q := r) (.refl _) rfl).past
    (q := r.movedTo (r.cursor.advance (numberLength r.cursor.rest))) (r.cursor.reaches_advance _)
    rfl (Cursor.advance_length hlength hne)
  refine Watch.step_bind rfl (Watch.step_bind rfl ?_)
  refine ((Shadows.step hP .cursor).bind fun here => ?_) _ _ hpast
  split
  · exact (Shadows.step hP .next).bind fun _ => .step hP (.allocFrom _ _)
  · exact .step hP (.allocFrom _ _)

theorem text_progresses : Progresses text text := by
  intro s r trail flags hs h haccepts
  have hquote : r.cursor.peek? = some '"' := of_decide_eq_true haccepts
  obtain ⟨d, hd⟩ := Cursor.rest_of_peek? hquote
  refine Watch.step_bind rfl ?_
  have h := h.moved (q := r) (.refl _) rfl
  cases hbody : textBody? (r.cursor.rest.drop 1) with
  | none => exact Watch.of_error rfl nofun h.sound
  | some p =>
      obtain ⟨body, after⟩ := p
      rw [hd, List.drop_one, List.tail_cons] at hbody
      obtain ⟨w, rfl, -⟩ := textBody?_eq_some hbody
      have hbytes : byteCount r.cursor.rest - byteCount after ≠ 0 := by
        rw [hd, byteCount_cons, byteCount_append, byteCount_cons]
        have hpos := ('"').utf8Size_pos
        omega
      have hpast := h.past
        (q := r.movedTo (r.cursor.advance (byteCount r.cursor.rest - byteCount after)))
        (r.cursor.reaches_advance _) rfl
        (Cursor.advance_length hbytes (hd ▸ List.cons_ne_nil _ _))
      exact Watch.step_bind rfl (Shadows.step (.past _) (.allocFrom _ _) _ _ hpast)

theorem identifier_progresses : Progresses identifier identifier := by
  intro s r trail flags hs h haccepts
  refine Watch.step_bind rfl (Watch.step_bind rfl ?_)
  refine Shadows.step (.past _) (.allocFrom _ _) _ _ ?_
  exact (h.moved (q := r) (.refl _) rfl).past
    (q := r.movedTo (r.cursor.takeWhile isWordChar).2) (r.cursor.reaches_takeWhile _) rfl
    (identifier_length haccepts)

theorem group_progresses : Progresses group group := by
  intro s r trail flags hs h haccepts
  have hx : r.cursor.peek? = some '(' := of_decide_eq_true haccepts
  have hP := Onward.past r.cursor
  refine h.opened (f := _) (t := _) hx ((hs.delimited .group _ '(' ')' .group).bind fun items => ?_)
  rcases items with - | ⟨only, - | ⟨second, items⟩⟩
  · exact .step hP (.allocFrom _ _)
  · exact .pure _
  · exact .step hP (.allocFrom _ _)

/-- By induction on the rounds: a round passes a separator or reads an expression. -/
theorem matrixRows_watch {r : Reader} {trail : Trail} (hs : s.Sound c) (opener : Span) {fuel : Nat}
    (row : List NodeId) (rows : List (List NodeId)) (h : Past c r trail)
    (hfuel : r.cursor.rest.length < fuel) :
    Watch r trail (matrixRows s.toSurroundings opener fuel row rows)
      (matrixRows s.tracked opener fuel row rows) fun _ => Past c := by
  induction fuel generalizing row rows r trail with
  | zero => exact absurd hfuel (Nat.not_lt_zero _)
  | succ fuel ih =>
      refine (hs.skip ((Onward.past c).below (fuel + 1)) _ _ ⟨h, hfuel⟩).bind
        fun _ r₁ trail₁ hskip => Watch.step_bind rfl ?_
      have hskipped := ((Onward.past c).below (fuel + 1)).moved hskip (.refl _) rfl
      have hround {r₂ : Reader} {trail₂ : Trail} (h₂ : Past r₁.cursor r₂ trail₂) :
          r₂.cursor.rest.length < fuel :=
        Nat.lt_of_lt_of_le h₂.shorter (Nat.le_of_lt_succ hskipped.2)
      cases hx : r₁.cursor.peek? with
      | none => exact Watch.of_error rfl nofun hskipped.1.sound
      | some x =>
          have hnext := hskipped.1.toKept.past_next hx
          by_cases hclose : x = ']'
          · subst hclose
            exact Watch.step_bind rfl (Shadows.pure _ _ _ (hskipped.1.trans hnext))
          · simp only
            split
            · exact Watch.step_bind rfl (ih _ _ (hskipped.1.trans hnext) (hround hnext))
            · split
              · exact Watch.step_bind rfl (ih _ _ (hskipped.1.trans hnext) (hround hnext))
              · exact (hs.expressionIn s.mode 0 hskipped.1).bind fun cell _ _ hcell =>
                  ih _ _ (hskipped.1.trans hcell) (hround hcell)

theorem matrix_progresses : Progresses matrix matrix := by
  intro s r trail flags hs h haccepts
  have hx : r.cursor.peek? = some '[' := of_decide_eq_true haccepts
  have hP := Onward.past r.cursor
  refine h.opened (f := _) (t := _) hx (Shadows.bind (.within fun r₁ trail₁ h₁ => ?_) fun rows =>
    .step hP (.allocFrom _ _))
  exact Watch.step_bind rfl (matrixRows_watch (hs.inside .matrix) _ [] []
    (hP.moved h₁ (.refl _) rfl) (Nat.lt_succ_self _))

theorem abs_progresses : Progresses abs abs := by
  intro s r trail flags hs h haccepts
  have hx : r.cursor.peek? = some '|' := bar_of_accepts haccepts
  have hP := Onward.past r.cursor
  have hparts := (hs.inside .abs).expression.bind fun operand =>
    ((hs.inside .abs).expectClose hP (r.cursor.peekSpan) '|' '|').bind fun _ => .pure operand
  exact h.opened (f := _) (t := _) hx (hparts.within.bind fun operand =>
    .step hP (.allocFrom _ _))

theorem leading_progresses : Progresses leading leading := by
  intro s r trail flags hs h haccepts
  obtain ⟨x, hx⟩ := sign_of_accepts haccepts
  exact h.opened (f := _) (t := _) hx ((hs.shadows s.mode _).bind fun operand =>
    .step (.past _) (.allocFrom _ _))

theorem block_progresses : Progresses block block := by
  intro s r trail flags hs h haccepts
  have hx : r.cursor.peek? = some '\x7b' := of_decide_eq_true haccepts
  have hP := Onward.past r.cursor
  exact h.opened (f := _) (t := _) hx (Shadows.bind (.within (((hs.inside .block).statements _).bind
    fun found => ((hs.inside .block).expectClose hP _ '\x7b' '\x7d').bind fun _ => .pure _))
    fun found => .step hP (.allocFrom _ _))

theorem standard_progresses {form : Form} (hform : form ∈ standard.map (·.2)) :
    form.Progresses form.tracked := by
  simp only [standard, List.map_cons, List.map_nil, List.mem_cons, List.not_mem_nil, or_false]
    at hform
  rcases hform with rfl | rfl | rfl | rfl | rfl | rfl | rfl | rfl | rfl | rfl | rfl | rfl | rfl
  · exact branch_progresses
  · exact whileLoop_progresses
  · exact forLoop_progresses
  · exact last_progresses
  · exact everything_progresses
  · exact number_progresses
  · exact text_progresses
  · exact identifier_progresses
  · exact group_progresses
  · exact matrix_progresses
  · exact abs_progresses
  · exact leading_progresses
  · exact block_progresses

end Form

end MatrixScript
