import MatrixScript.Grammar.Expression
import MatrixScript.Grammar.Forms
import MatrixScript.Proofs.Reading.Steps

/-!
# What expressions and forms give

The laws of the steps that know the grammar: an operand, the chain of operators behind it, and the
parts from which the forms are made.
-/

namespace MatrixScript

open Reading

namespace Reader

/-- The reader once a form has read an operand. -/
def afterOperand (r : Reader) (form : Form) (id : NodeId) : Reader :=
  { r with
    premise := (form.premise.map (·, r.cursor.offset)).or r.premise
    afterControlFlow := (r.forest.kind? id).any (·.isControlFlow) }

/-- The reader once it has stored the node of an operator. -/
def afterOperator (r : Reader) (kind : NodeKind NodeId) (span : Span) : Reader :=
  { r.withNode kind span with afterControlFlow := false }

variable (r : Reader) (form : Form) (id : NodeId) (kind : NodeKind NodeId) (span : Span)

@[simp] theorem afterOperand_cursor : (r.afterOperand form id).cursor = r.cursor := rfl

@[simp] theorem afterOperand_forest : (r.afterOperand form id).forest = r.forest := rfl

@[simp] theorem afterOperator_cursor : (r.afterOperator kind span).cursor = r.cursor := rfl

@[simp] theorem afterOperator_forest :
    (r.afterOperator kind span).forest = (r.withNode kind span).forest := rfl

@[simp] theorem afterOperator_premise : (r.afterOperator kind span).premise = r.premise := rfl

@[simp] theorem afterOperator_afterControlFlow :
    (r.afterOperator kind span).afterControlFlow = false := rfl

end Reader

namespace Grammar

variable {g : Grammar} {s : Surroundings} {r r₁ : Reader} {id left : NodeId}

theorem operand_eq_ok_iff :
    g.operand s r = .ok (id, r₁) ↔
      ∃ elided r₂, s.skip r = .ok (elided, r₂)
        ∧ ∃ form, g.findForm? r₂.cursor.rest s.mode.flags = some form
          ∧ ∃ r₃, form.read s r₂ = .ok (id, r₃) ∧ r₁ = r₃.afterOperand form id := by
  unfold operand
  simp only [bind_eq_ok_iff (f := s.skip), cursor_bind]
  refine exists_congr fun elided => exists_congr fun r₂ => and_congr_right fun _ => ?_
  cases hform : g.findForm? r₂.cursor.rest s.mode.flags with
  | none => simp [fail_ne_ok]
  | some form =>
      simp only [bind_eq_ok_iff, kind?_bind, offset_bind, ends_bind, pure_eq_ok_iff,
        Option.some.injEq, exists_eq_left']
      constructor
      · rintro ⟨id, r₃, hread, rfl, rfl⟩
        exact ⟨r₃, hread, rfl⟩
      · rintro ⟨r₃, hread, rfl⟩
        exact ⟨id, r₃, hread, rfl, rfl⟩

theorem chain_eq_ok_iff {least : UInt8} {fuel : Nat} :
    g.chain s least (fuel + 1) left r = .ok (id, r₁) ↔
      ∃ spaced r₂, s.skip r = .ok (spaced, r₂)
        ∧ (g.endsOperators s.mode.flags spaced r₂.cursor.rest = true
            ∧ id = left ∧ r₁ = r₂.movedTo r.cursor
          ∨ g.endsOperators s.mode.flags spaced r₂.cursor.rest = false
            ∧ ∃ found, g.findOperator? r₂.cursor.rest
                (g.premiseAt r₂ s.mode.flags r.cursor.offset spaced) = some found
              ∧ (found.operator.precedence < least ∧ id = left ∧ r₁ = r₂.movedTo r.cursor
                ∨ ¬found.operator.precedence < least
                  ∧ ∃ kind r₃, applyFixity s found.operator left
                      ((r₂.cursor.advance found.bytes).spanFrom r₂.cursor.offset)
                      (r₂.movedTo (r₂.cursor.advance found.bytes)) = .ok (kind, r₃)
                    ∧ g.chain s least fuel r₃.forest.nextId
                        (r₃.afterOperator kind
                          (((r₂.forest.get? left).elim Span.none (·.span)).merge
                            (r₃.cursor.spanFrom r₂.cursor.offset))) = .ok (id, r₁))) := by
  rw [chain]
  simp only [bind_eq_ok_iff (f := s.skip), cursor_bind, get_bind]
  refine exists_congr fun spaced => exists_congr fun r₂ => and_congr_right fun _ => ?_
  by_cases hends : g.endsOperators s.mode.flags spaced r₂.cursor.rest = true
  · simp [hends, pure_eq_ok_iff]
  · cases hfound : g.findOperator? r₂.cursor.rest
      (g.premiseAt r₂ s.mode.flags r.cursor.offset spaced) with
    | none => simp [hends, fail_ne_ok]
    | some found =>
        simp only [hends, ite_run, ite_eq_iff, moveTo_bind, pure_eq_ok_iff, advance_bind,
          cursor_bind, spanOf_bind, alloc_bind, ends_bind, bind_eq_ok_iff]
        simp [Reader.afterOperator]

theorem expression_eq_ok_iff {fuel : Nat} {mode : Mode} {least : UInt8} :
    g.expression (fuel + 1) mode least r = .ok (id, r₁) ↔
      ∃ left r₂, g.operand ⟨mode, g.skip, g.expression fuel⟩ r = .ok (left, r₂)
        ∧ (r₂.afterControlFlow = true ∧ id = left ∧ r₁ = r₂
          ∨ r₂.afterControlFlow = false
            ∧ g.chain ⟨mode, g.skip, g.expression fuel⟩ least (r₂.cursor.rest.length + 1) left r₂
              = .ok (id, r₁)) := by
  rw [expression, whole_eq]
  simp only [bind_eq_ok_iff, get_bind, ite_run, ite_eq_iff, pure_eq_ok_iff, rounds_bind,
    Bool.not_eq_true]

end Grammar

theorem exists_of_startsWithWord {word input : List Char}
    (h : startsWithWord word input = true) : ∃ rest, input = word ++ rest := by
  have hprefix := (Bool.and_eq_true_iff.mp h).1
  obtain ⟨rest, hrest⟩ := List.isPrefixOf_iff_prefix.mp hprefix
  exact ⟨rest, hrest.symm⟩

theorem Surroundings.eatWord_eq_ok_iff {s : Surroundings} {r r₁ : Reader} {word : List Char}
    {b : Bool} :
    s.eatWord word r = .ok (b, r₁) ↔
      ∃ elided r₂, s.skip r = .ok (elided, r₂)
        ∧ ∃ u r₃, s.skipLines (r₂.cursor.rest.length + 1) r₂ = .ok (u, r₃)
          ∧ (startsWithWord word r₃.cursor.rest = true ∧ b = true
              ∧ r₁ = r₃.movedTo (r₃.cursor.advance (byteCount word))
            ∨ startsWithWord word r₃.cursor.rest = false ∧ b = false
              ∧ r₁ = r₃.movedTo r.cursor) := by
  unfold eatWord
  simp only [cursor_bind, rounds_bind, bind_eq_ok_iff (f := s.skip), bind_eq_ok_iff (f := s.skipLines _),
    ite_run, ite_eq_iff, pure_eq_ok_iff, advance_bind, moveTo_bind, Bool.not_eq_true]

namespace Form

variable {s : Surroundings} {r r₁ : Reader} {id : NodeId}

theorem keyword_read_eq_ok_iff {word : List Char}
    {parts : Surroundings → Reading (NodeKind NodeId)} :
    (keyword word parts).read s r = .ok (id, r₁) ↔
      ∃ kind r₂, parts s (r.movedTo (r.cursor.advance (byteCount word))) = .ok (kind, r₂)
        ∧ id = r₂.forest.nextId
        ∧ r₁ = r₂.withNode kind (r₂.cursor.spanFrom r.cursor.offset) := by
  unfold keyword
  simp only [offset_bind, advance_bind, bind_eq_ok_iff, allocFrom_eq_ok_iff]

theorem identifier_read :
    identifier.read s r
      = (allocFrom (.name (String.ofList (r.cursor.rest.takeWhile isWordChar)))
          r.cursor.offset : Reading NodeId) (r.movedTo (r.cursor.takeWhile isWordChar).2) := rfl

theorem number_read :
    number.read s r
      = if startsWithWord ['i'] (r.cursor.advance (numberLength r.cursor.rest)).rest then
          (allocFrom (.imaginary (Decimal.toDouble (r.cursor.rest.take
            (numberLength r.cursor.rest)))) r.cursor.offset : Reading NodeId)
            (r.movedTo (r.cursor.advance (numberLength r.cursor.rest)).next)
        else
          (allocFrom (.real (Decimal.toDouble (r.cursor.rest.take (numberLength r.cursor.rest))))
            r.cursor.offset : Reading NodeId)
            (r.movedTo (r.cursor.advance (numberLength r.cursor.rest))) := by
  simp only [number, cursor_bind, advance_bind, ite_run, next_bind]
  rfl

theorem text_read_eq_ok_iff :
    text.read s r = .ok (id, r₁) ↔
      ∃ body after, textBody? (r.cursor.rest.drop 1) = some (body, after)
        ∧ (allocFrom (.text (String.ofList body)) r.cursor.offset : Reading NodeId)
            (r.movedTo (r.cursor.advance (byteCount r.cursor.rest - byteCount after)))
          = .ok (id, r₁) := by
  simp only [text, cursor_bind]
  cases textBody? (r.cursor.rest.drop 1) with
  | none => simp [within_eq_ok_iff, fail_ne_ok]
  | some p =>
      obtain ⟨body, after⟩ := p
      constructor
      · exact fun hf => ⟨body, after, rfl, hf⟩
      · rintro ⟨body, after, ⟨⟩, hf⟩
        exact hf

theorem headPart_eq_ok_iff {close : Char} :
    headPart s close r = .ok (id, r₁) ↔
      ∃ elided r₂, s.skip r = .ok (elided, r₂)
        ∧ (r₂.cursor.peek? = some close ∧ id = NodeId.absent ∧ r₁ = r₂
          ∨ r₂.cursor.peek? ≠ some close ∧ s.expression r₂ = .ok (id, r₁)) := by
  unfold headPart
  simp only [bind_eq_ok_iff, peek?_bind, ite_run, ite_eq_iff, pure_eq_ok_iff]

theorem matrixRows_eq_ok_iff {opener : Span} {fuel : Nat} {row : List NodeId}
    {rows found : List (List NodeId)} :
    matrixRows s opener (fuel + 1) row rows r = .ok (found, r₁) ↔
      ∃ elided r₂, s.skip r = .ok (elided, r₂)
        ∧ ∃ c, r₂.cursor.peek? = some c
          ∧ (c = ']' ∧ found = (endRow row rows).reverse ∧ r₁ = r₂.movedTo r₂.cursor.next
            ∨ c ≠ ']' ∧ ((c = ';' ∨ c = '\n')
                ∧ matrixRows s opener fuel [] (endRow row rows) (r₂.movedTo r₂.cursor.next)
                  = .ok (found, r₁)
              ∨ ¬(c = ';' ∨ c = '\n') ∧ (c = ','
                  ∧ matrixRows s opener fuel row rows (r₂.movedTo r₂.cursor.next)
                    = .ok (found, r₁)
                ∨ c ≠ ',' ∧ ∃ cell r₃, s.expression r₂ = .ok (cell, r₃)
                  ∧ matrixRows s opener fuel (cell :: row) rows r₃ = .ok (found, r₁)))) := by
  rw [matrixRows]
  simp only [bind_eq_ok_iff (f := s.skip), peek?_bind]
  refine exists_congr fun elided => exists_congr fun r₂ => and_congr_right fun _ => ?_
  cases hc : r₂.cursor.peek? with
  | none => simp [fail_ne_ok]
  | some c =>
      by_cases hclose : c = ']'
      · subst hclose
        simp [pure_eq_ok_iff]
      · simp [hclose, bind_eq_ok_iff, ite_eq_iff]

end Form

end MatrixScript
