import MatrixScript.Grammar.Sequence
import Mathlib.Tactic.SplitIfs
import Mathlib.Tactic.Tauto

/-!
# What a step of reading gives

A step is a function from readers to readers that can fail. For each step that the forms share there
is one law, which says exactly when it succeeds and what it leaves. Whoever follows a run uses the
law from left to right, and whoever runs a step on a text that is known uses it from right to left.
-/

namespace MatrixScript

namespace Reader

def movedTo (r : Reader) (c : Cursor) : Reader := { r with cursor := c }

@[simp] theorem movedTo_cursor (r : Reader) (c : Cursor) : (r.movedTo c).cursor = c := rfl

@[simp] theorem movedTo_forest (r : Reader) (c : Cursor) : (r.movedTo c).forest = r.forest := rfl

@[simp] theorem movedTo_premise (r : Reader) (c : Cursor) : (r.movedTo c).premise = r.premise := rfl

@[simp] theorem movedTo_afterControlFlow (r : Reader) (c : Cursor) :
    (r.movedTo c).afterControlFlow = r.afterControlFlow := rfl

@[simp] theorem movedTo_movedTo (r : Reader) (c d : Cursor) :
    (r.movedTo c).movedTo d = r.movedTo d := rfl

@[simp] theorem movedTo_self (r : Reader) : r.movedTo r.cursor = r := rfl

/-- The reader once it has stored a node. -/
def withNode (r : Reader) (kind : NodeKind NodeId) (span : Span) : Reader :=
  { r with forest := (r.forest.push ⟨kind, span⟩).2 }

@[simp] theorem withNode_cursor (r : Reader) (kind : NodeKind NodeId) (span : Span) :
    (r.withNode kind span).cursor = r.cursor := rfl

@[simp] theorem withNode_premise (r : Reader) (kind : NodeKind NodeId) (span : Span) :
    (r.withNode kind span).premise = r.premise := rfl

@[simp] theorem withNode_afterControlFlow (r : Reader) (kind : NodeKind NodeId) (span : Span) :
    (r.withNode kind span).afterControlFlow = r.afterControlFlow := rfl

end Reader

namespace Cursor

variable {c : Cursor}

theorem advance_append {p d : List Char} (h : c.rest = p ++ d) :
    c.advance (byteCount p) = ⟨c.offset + byteCount p, d⟩ := by
  simp only [advance, h, dropBytes_append, byteCount_append, Nat.add_sub_cancel]

theorem next_cons {x : Char} {d : List Char} (h : c.rest = x :: d) :
    c.next = ⟨c.offset + x.utf8Size, d⟩ := by
  simp only [next, h]

theorem peek?_cons {x : Char} {d : List Char} (h : c.rest = x :: d) : c.peek? = some x := by
  rw [peek?, h, List.head?_cons]

theorem rest_of_peek? {x : Char} (h : c.peek? = some x) : ∃ d, c.rest = x :: d := by
  cases hrest : c.rest with
  | nil =>
      rw [peek?, hrest] at h
      cases h
  | cons y d =>
      rw [peek?, hrest] at h
      cases h
      exact ⟨d, rfl⟩

theorem next_length {x : Char} (h : c.peek? = some x) :
    c.next.rest.length + 1 = c.rest.length := by
  obtain ⟨d, hd⟩ := rest_of_peek? h
  rw [next_cons hd, hd, List.length_cons]

end Cursor

namespace Reading

variable {α β : Type} {r r₁ r₂ : Reader}

@[simp] theorem step_eq (f : Reading α) : MonadReading.step f = f := rfl

@[simp] theorem whole_eq (f : Reading α) : MonadReading.whole f = f := rfl

theorem bind_ok {f : Reading α} {a : α} (hf : f r = .ok (a, r₁)) (g : α → Reading β) :
    (f >>= g) r = g a r₁ := by
  change (f r >>= fun p => g p.1 p.2) = _
  rw [hf]
  rfl

theorem bind_eq_ok_iff {f : Reading α} {g : α → Reading β} {b : β} :
    (f >>= g) r = .ok (b, r₂) ↔ ∃ a r₁, f r = .ok (a, r₁) ∧ g a r₁ = .ok (b, r₂) := by
  constructor
  · intro h
    change (f r >>= fun p => g p.1 p.2) = _ at h
    cases hf : f r with
    | error e =>
        rw [hf] at h
        cases h
    | ok p =>
        rw [hf] at h
        exact ⟨p.1, p.2, rfl, h⟩
  · rintro ⟨a, r₁, hf, hg⟩
    rw [bind_ok hf, hg]

theorem pure_eq_ok_iff {a b : α} : (pure a : Reading α) r = .ok (b, r₁) ↔ b = a ∧ r₁ = r := by
  change Except.ok (a, r) = Except.ok (b, r₁) ↔ _
  constructor
  · intro h
    cases h
    exact ⟨rfl, rfl⟩
  · rintro ⟨rfl, rfl⟩
    rfl

theorem fail_ne_ok {fault : ParseFault} {span : Span} {p : α × Reader} :
    (fail fault span : Reading α) r ≠ .ok p := nofun

theorem within_run (construct : Construct) (f : Reading α) (r : Reader) :
    within construct f r = (f r).mapError (·.within construct) := rfl

theorem within_eq_ok_iff {construct : Construct} {f : Reading α} {p : α × Reader} :
    within construct f r = .ok p ↔ f r = .ok p := by
  rw [within_run]
  cases f r <;> simp [Except.mapError]

/-! ### Steps that cannot fail -/

@[simp] theorem ite_run (p : Prop) [Decidable p] (f g : Reading α) :
    (if p then f else g) r = if p then f r else g r := by
  split <;> rfl

@[simp] theorem cursor_bind (g : Cursor → Reading β) : (cursor >>= g) r = g r.cursor r := rfl

@[simp] theorem get_bind (g : Reader → Reading β) : (get >>= g) r = g r r := rfl

@[simp] theorem offset_bind (g : Nat → Reading β) : (offset >>= g) r = g r.cursor.offset r := rfl

@[simp] theorem peek?_bind (g : Option Char → Reading β) :
    (peek? >>= g) r = g r.cursor.peek? r := rfl

@[simp] theorem kind?_bind (id : NodeId) (g : Option (NodeKind NodeId) → Reading β) :
    (kind? id >>= g) r = g (r.forest.kind? id) r := rfl

@[simp] theorem spanOf_bind (id : NodeId) (g : Span → Reading β) :
    (spanOf id >>= g) r = g ((r.forest.get? id).elim Span.none (·.span)) r := rfl

@[simp] theorem rounds_bind (g : Nat → Reading β) :
    (Surroundings.rounds >>= g) r = g (r.cursor.rest.length + 1) r := rfl

@[simp] theorem moveTo_bind (c : Cursor) (g : Unit → Reading β) :
    (moveTo c >>= g) r = g () (r.movedTo c) := rfl

@[simp] theorem next_bind (g : Unit → Reading β) :
    (next >>= g) r = g () (r.movedTo r.cursor.next) := rfl

@[simp] theorem advance_bind (n : Nat) (g : Unit → Reading β) :
    (advance n >>= g) r = g () (r.movedTo (r.cursor.advance n)) := rfl

@[simp] theorem ends_bind (f : Reader → Reader) (g : Unit → Reading β) :
    (MonadReading.ends f >>= g) r = g () (f r) := rfl

@[simp] theorem alloc_bind (kind : NodeKind NodeId) (span : Span) (g : NodeId → Reading β) :
    (alloc kind span >>= g) r = g r.forest.nextId (r.withNode kind span) := rfl

theorem allocFrom_eq_ok_iff {kind : NodeKind NodeId} {start : Nat} {id : NodeId} :
    (allocFrom kind start : Reading NodeId) r = .ok (id, r₁) ↔
      id = r.forest.nextId ∧ r₁ = r.withNode kind (r.cursor.spanFrom start) := by
  change Except.ok (r.forest.nextId, r.withNode kind (r.cursor.spanFrom start)) = _ ↔ _
  rw [Except.ok.injEq, Prod.mk.injEq, eq_comm, eq_comm (b := r₁)]

theorem eat_eq_ok_iff {c : Char} {b : Bool} :
    (eat c : Reading Bool) r = .ok (b, r₁) ↔
      r.cursor.peek? = some c ∧ b = true ∧ r₁ = r.movedTo r.cursor.next
        ∨ r.cursor.peek? ≠ some c ∧ b = false ∧ r₁ = r := by
  unfold eat
  rw [step_eq, cursor_bind, Cursor.eat?]
  by_cases hc : r.cursor.peek? = some c <;> simp [hc, pure_eq_ok_iff]

/-- Passing a character that may come next never fails, whatever is done behind it. -/
theorem eat_bind (c : Char) (g : Bool → Reading β) :
    (eat c >>= g) r
      = if r.cursor.peek? = some c then g true (r.movedTo r.cursor.next) else g false r := by
  by_cases hc : r.cursor.peek? = some c
  · rw [bind_ok (eat_eq_ok_iff.mpr (.inl ⟨hc, rfl, rfl⟩)), if_pos hc]
  · rw [bind_ok (eat_eq_ok_iff.mpr (.inr ⟨hc, rfl, rfl⟩)), if_neg hc]

end Reading

open Reading

namespace Surroundings

variable {s : Surroundings} {r r₁ r₂ : Reader}

theorem expect_eq_ok_iff {c : Char} {span : Span} :
    s.expect c r = .ok (span, r₁) ↔
      ∃ elided r₀, s.skip r = .ok (elided, r₀) ∧ r₀.cursor.peek? = some c
        ∧ span = r₀.cursor.peekSpan ∧ r₁ = r₀.movedTo r₀.cursor.next := by
  rw [expect]
  simp [bind_eq_ok_iff (f := s.skip), eat_bind, ite_eq_iff, pure_eq_ok_iff, fail_ne_ok]

theorem expectClose_eq_ok_iff {opener : Span} {opening closing : Char} {u : Unit} :
    s.expectClose opener opening closing r = .ok (u, r₁) ↔
      ∃ elided r₀, s.skip r = .ok (elided, r₀) ∧ r₀.cursor.peek? = some closing
        ∧ r₁ = r₀.movedTo r₀.cursor.next := by
  rw [expectClose]
  simp [bind_eq_ok_iff (f := s.skip), eat_bind, ite_eq_iff, pure_eq_ok_iff, fail_ne_ok]

theorem items_eq_ok_iff {opener : Span} {opening closing : Char} {fuel : Nat}
    {found ids : List NodeId} :
    s.items opener opening closing (fuel + 1) found r = .ok (ids, r₁) ↔
      ∃ item r₂, s.expression r = .ok (item, r₂) ∧ ∃ elided r₃, s.skip r₂ = .ok (elided, r₃)
        ∧ (r₃.cursor.peek? = some ','
              ∧ s.items opener opening closing fuel (item :: found)
                  (r₃.movedTo r₃.cursor.next) = .ok (ids, r₁)
          ∨ r₃.cursor.peek? ≠ some ','
              ∧ ∃ u r₄, s.expectClose opener opening closing r₃ = .ok (u, r₄)
                ∧ ids = (item :: found).reverse ∧ r₁ = r₄) := by
  rw [items]
  simp only [bind_eq_ok_iff, eat_bind, ite_run, ite_eq_iff, pure_eq_ok_iff, reduceIte,
    Bool.false_eq_true]

theorem delimited_eq_ok_iff {mode : Mode} {opener : Span} {opening closing : Char}
    {construct : Construct} {ids : List NodeId} :
    s.delimited mode opener opening closing construct r = .ok (ids, r₁) ↔
      ∃ elided r₂, (s.inside mode).skip r = .ok (elided, r₂)
        ∧ (r₂.cursor.peek? = some closing ∧ ids = [] ∧ r₁ = r₂.movedTo r₂.cursor.next
          ∨ r₂.cursor.peek? ≠ some closing
              ∧ (s.inside mode).items opener opening closing (r₂.cursor.rest.length + 1) [] r₂
                = .ok (ids, r₁)) := by
  unfold delimited
  simp only [within_eq_ok_iff, bind_eq_ok_iff, eat_bind, ite_run, ite_eq_iff, pure_eq_ok_iff,
    reduceIte, Bool.false_eq_true, rounds_bind]

theorem condition_eq_ok_iff {cond : NodeId} :
    s.condition r = .ok (cond, r₁) ↔
      ∃ opener r₂, s.expect '(' r = .ok (opener, r₂)
        ∧ ∃ id r₃, (s.inside .group).expression r₂ = .ok (id, r₃)
          ∧ ∃ u r₄, (s.inside .group).expectClose opener '(' ')' r₃ = .ok (u, r₄)
            ∧ cond = id ∧ r₁ = r₄ := by
  unfold condition
  simp only [bind_eq_ok_iff, pure_eq_ok_iff]

theorem skipLines_eq_ok_iff {fuel : Nat} {u : Unit} :
    s.skipLines (fuel + 1) r = .ok (u, r₁) ↔
      r.cursor.peek? = some '\n'
          ∧ (∃ elided r₂, s.skip (r.movedTo r.cursor.next) = .ok (elided, r₂)
            ∧ s.skipLines fuel r₂ = .ok (u, r₁))
        ∨ r.cursor.peek? ≠ some '\n' ∧ r₁ = r := by
  rw [skipLines]
  simp only [bind_eq_ok_iff, eat_bind, ite_run, ite_eq_iff, pure_eq_ok_iff, reduceIte,
    Bool.false_eq_true, true_and]

theorem statementEnd_eq_ok_iff {close : Option Char} {muted : Bool} :
    statementEnd close r = .ok (muted, r₁) ↔
      (r.cursor.peek? = none
            ∨ r.cursor.peek? ≠ some ';' ∧ r.cursor.peek? ≠ some '\n'
              ∧ (r.cursor.peek? = close ∨ r.afterControlFlow = true))
          ∧ muted = false ∧ r₁ = r
        ∨ (r.cursor.peek? = some ';' ∧ muted = true ∨ r.cursor.peek? = some '\n' ∧ muted = false)
          ∧ r₁ = r.movedTo r.cursor.next := by
  unfold statementEnd
  rw [cursor_bind]
  cases hc : r.cursor.peek? with
  | none => simp [pure_eq_ok_iff]
  | some c =>
      by_cases hsemi : c = ';'
      · subst hsemi
        simp [pure_eq_ok_iff]
      · by_cases hline : c = '\n'
        · subst hline
          simp [pure_eq_ok_iff]
        · simp [hsemi, hline, within_eq_ok_iff, ite_eq_iff, pure_eq_ok_iff, fail_ne_ok]

theorem statementList_eq_ok_iff {close : Option Char} {fuel : Nat} {found ts : List Statement} :
    s.statementList close (fuel + 1) found r = .ok (ts, r₁) ↔
      ∃ elided r₂, s.skip r = .ok (elided, r₂)
        ∧ ((r₂.cursor.peek? = none ∨ r₂.cursor.peek? = close) ∧ ts = found.reverse ∧ r₁ = r₂
          ∨ ∃ c, r₂.cursor.peek? = some c ∧ some c ≠ close
            ∧ ((c = ';' ∨ c = '\n')
                ∧ s.statementList close fuel found (r₂.movedTo r₂.cursor.next) = .ok (ts, r₁)
              ∨ ¬(c = ';' ∨ c = '\n')
                ∧ ∃ root r₃, s.expression r₂ = .ok (root, r₃)
                  ∧ ∃ elided r₄, s.skip r₃ = .ok (elided, r₄)
                  ∧ ∃ muted r₅, statementEnd close r₄ = .ok (muted, r₅)
                  ∧ s.statementList close fuel (⟨root, muted⟩ :: found) r₅ = .ok (ts, r₁))) := by
  rw [statementList]
  simp only [bind_eq_ok_iff (f := s.skip), peek?_bind]
  refine exists_congr fun elided => exists_congr fun r₂ => and_congr_right fun _ => ?_
  cases hc : r₂.cursor.peek? with
  | none => simp [pure_eq_ok_iff]
  | some c =>
      by_cases hclose : some c = close
      · subst hclose
        simp [pure_eq_ok_iff]
      · simp [hclose, within_eq_ok_iff, bind_eq_ok_iff, ite_eq_iff]

end Surroundings

end MatrixScript
