import MatrixScript.Proofs.Bindings
import MatrixScript.Proofs.Truncation

/-!
# Assignments that succeed

When the evaluation of an assignment gives a value, node by node: what its parts have given before,
and what it has bound. A compound assignment evaluates the right side first and reads the old value
then; a plain one evaluates an operation that reads the old value first.
-/

namespace MatrixScript

/-- The machine with a name bound. -/
def Machine.defining (m : Machine) (name : String) (v : Value) : Machine :=
  { m with environment := m.environment.define name v }

/-- The operators that are computed from both operands, whatever the left one is. -/
def BinaryOp.IsStrict (op : BinaryOp) : Prop := op ≠ .and ∧ op ≠ .or

/-- A value that parentheses index. -/
def Value.IsIndexed (v : Value) : Prop := v.kind ∈ [.scalar, .matrix, .range, .string]

namespace Evaluation

variable {α β : Type} {x : Evaluation α} {f : α → Evaluation β} {a : α} {m left : Machine}

theorem run_bind_eq_ok_iff {b : β} : (x >>= f).run.run m = (.ok b, left) ↔
    ∃ a m₁, x.run.run m = (.ok a, m₁) ∧ (f a).run.run m₁ = (.ok b, left) :=
  ⟨exists_of_run_bind, fun ⟨_, _, hx, hf⟩ => (run_bind_of_ok hx).trans hf⟩

theorem run_pure_eq_ok_iff {b : α} :
    (pure a : Evaluation α).run.run m = (.ok b, left) ↔ b = a ∧ left = m := by
  constructor
  · intro h
    cases h
    exact ⟨rfl, rfl⟩
  · rintro ⟨rfl, rfl⟩
    rfl

theorem run_ofResult_eq_ok_iff {r : Result α} :
    (ofResult r).run.run m = (.ok a, left) ↔ r = .ok a ∧ left = m := by
  cases r with
  | error fault => exact ⟨nofun, nofun⟩
  | ok b =>
      refine run_pure_eq_ok_iff.trans (and_congr_left fun _ => ?_)
      rw [Except.ok.injEq, eq_comm]

theorem run_locatedAt_eq_ok_iff (span : Span) :
    (x.locatedAt span).run.run m = (.ok a, left) ↔ x.run.run m = (.ok a, left) := by
  change ((x.run.run m).1.mapError _, (x.run.run m).2) = _ ↔ _
  generalize x.run.run m = run
  obtain ⟨r, left'⟩ := run
  cases r with
  | ok b => exact Iff.rfl
  | error stop => exact ⟨nofun, nofun⟩

theorem run_withExtent_eq_ok_iff {extent : Option Nat} :
    (x.withExtent extent).run.run m = (.ok a, left)
      ↔ ∃ left', x.run.run { m with extents := extent :: m.extents } = (.ok a, left')
        ∧ left = { left' with extents := left'.extents.tail } := by
  let opened : Machine := { m with extents := extent :: m.extents }
  change ((x.run.run opened).1, { (x.run.run opened).2 with
    extents := (x.run.run opened).2.extents.tail }) = _ ↔ _
  generalize x.run.run opened = run
  obtain ⟨r, left'⟩ := run
  constructor
  · rintro ⟨⟩
    exact ⟨left', rfl, rfl⟩
  · rintro ⟨_, ⟨⟩, rfl⟩
    rfl

theorem run_define_eq_ok_iff {name : String} {v : Value} {done : Unit} :
    (define name v).run.run m = (.ok done, left) ↔ left = m.defining name v := by
  constructor
  · intro h
    cases h
    rfl
  · rintro rfl
    rfl

theorem run_oldValue_eq_ok_iff {name : String} {v : Value} :
    (Setting.oldValue name).run.run m = (.ok v, left)
      ↔ m.environment.lookup name = some v ∧ left = m := by
  have hrun : (Setting.oldValue name).run.run m
      = (orFail (m.environment.lookup name) (.symbolMissing name)).run.run m := rfl
  rw [hrun, orFail, run_ofResult_eq_ok_iff]
  refine and_congr_left fun _ => ?_
  cases m.environment.lookup name with
  | none => exact ⟨nofun, nofun⟩
  | some w => simp

end Evaluation

namespace Setting

open Evaluation

variable {s : Setting} {fuel : Nat} {m left : Machine} {name : String} {op : BinaryOp}
  {id target callee value operation operand : NodeId} {ids : List NodeId} {v w u old : Value}

/-- A node that is there gives what its kind gives. -/
theorem run_evaluate_eq_ok_iff {k : NodeKind NodeId} (h : s.forest.kind? id = some k) :
    (evaluate (fuel + 1) s id).run.run m = (.ok v, left)
      ↔ (s.value (evaluate fuel) fuel k).run.run m = (.ok v, left) := by
  obtain ⟨node, hnode, rfl⟩ := Option.map_eq_some_iff.mp h
  rw [run_evaluate hnode, run_locatedAt_eq_ok_iff]

/-- A variable is looked up, and nothing happens. -/
theorem run_name_eq_ok_iff (h : s.forest.kind? id = some (.name name))
    (hold : m.environment.lookup name = some old) :
    (evaluate (fuel + 1) s id).run.run m = (.ok v, left) ↔ v = old ∧ left = m := by
  have hrun : (s.lookup name).run.run m = (pure old : Evaluation Value).run.run m := by
    change (orFail ((m.environment.lookup name).or (s.library.value? name))
      (.symbolMissing name)).run.run m = _
    rw [hold]
    rfl
  rw [run_evaluate_eq_ok_iff h]
  change (s.lookup name).run.run m = _ ↔ _
  rw [hrun, run_pure_eq_ok_iff]

/-- Elements of a variable. -/
theorem run_element_eq_ok_iff (h : s.forest.kind? id = some (.call callee ids))
    (hcallee : s.forest.kind? callee = some (.name name)) (hindexed : old.IsIndexed)
    (hold : m.environment.lookup name = some old) :
    (evaluate (fuel + 1) s id).run.run m = (.ok v, left)
      ↔ ∃ args, (s.indexArguments (evaluate fuel) old ids).run.run m = (.ok args, left)
        ∧ old.index args = .ok v := by
  have happly : s.apply (evaluate fuel) old ids
      = s.indexArguments (evaluate fuel) old ids >>= fun args => ofResult (old.index args) := by
    cases old with
    | set t => simp [Value.IsIndexed, Value.kind] at hindexed
    | function f => simp [Value.IsIndexed, Value.kind] at hindexed
    | plot title series => simp [Value.IsIndexed, Value.kind] at hindexed
    | _ => rfl
  have hrun : (s.callNamed (evaluate fuel) name ids).run.run m
      = (s.apply (evaluate fuel) old ids).run.run m := by
    have hvisible : (visible? name).run.run m = (.ok (some old), m) :=
      congrArg (fun v => (Except.ok v, m)) hold
    rw [callNamed, run_bind_of_ok hvisible]
  rw [run_evaluate_eq_ok_iff h]
  change (s.call (evaluate fuel) callee ids).run.run m = _ ↔ _
  rw [call, kind_eq_pure hcallee, pure_bind]
  dsimp only
  rw [hrun, happly, run_bind_eq_ok_iff]
  simp only [run_ofResult_eq_ok_iff]
  constructor
  · rintro ⟨args, m₁, hargs, hv, rfl⟩
    exact ⟨args, hargs, hv⟩
  · rintro ⟨args, hargs, hv⟩
    exact ⟨args, left, hargs, hv, rfl⟩

/-- Both operands are evaluated, the left one first. -/
theorem run_operation_eq_ok_iff (h : s.forest.kind? id = some (.binary op operand value))
    (hop : op.IsStrict) :
    (evaluate (fuel + 1) s id).run.run m = (.ok u, left)
      ↔ ∃ w m₁ v, (evaluate fuel s operand).run.run m = (.ok w, m₁)
        ∧ (evaluate fuel s value).run.run m₁ = (.ok v, left) ∧ Value.binary op w v = .ok u := by
  have hboth : s.binary (evaluate fuel) op operand value = (do
      let w ← evaluate fuel s operand
      let v ← evaluate fuel s value
      ofResult (Value.binary op w v)) := by
    unfold Setting.binary
    cases op with
    | and => exact absurd rfl hop.1
    | or => exact absurd rfl hop.2
    | _ => rfl
  rw [run_evaluate_eq_ok_iff h]
  change (s.binary (evaluate fuel) op operand value).run.run m = _ ↔ _
  rw [hboth]
  simp only [run_bind_eq_ok_iff, run_ofResult_eq_ok_iff]
  constructor
  · rintro ⟨w, m₁, hw, v, m₂, hv, hu, rfl⟩
    exact ⟨w, m₁, v, hw, hv, hu⟩
  · rintro ⟨w, m₁, v, hw, hv, hu⟩
    exact ⟨w, m₁, hw, v, left, hv, hu, rfl⟩

/-! ### A name as the target -/

section Name

variable (htarget : s.forest.kind? target = some (.name name))
include htarget

/-- A compound assignment evaluates the right side and then reads the old value. -/
theorem run_compound_eq_ok_iff (h : s.forest.kind? id = some (.assign target (some op) value)) :
    (evaluate (fuel + 1) s id).run.run m = (.ok u, left)
      ↔ ∃ v m₁ old, (evaluate fuel s value).run.run m = (.ok v, m₁)
        ∧ m₁.environment.lookup name = some old ∧ Value.binary op old v = .ok u
        ∧ left = m₁.defining name u := by
  rw [run_evaluate_eq_ok_iff h]
  change (s.assign (evaluate fuel) target (some op) value).run.run m = _ ↔ _
  rw [assign, kind_eq_pure htarget, pure_bind]
  simp only [assignName, combined, run_bind_eq_ok_iff, run_oldValue_eq_ok_iff,
    run_ofResult_eq_ok_iff, run_define_eq_ok_iff, run_pure_eq_ok_iff]
  constructor
  · rintro ⟨v, m₁, hv, u', m₂, ⟨old, m₃, ⟨hold, rfl⟩, hu, rfl⟩, -, m₄, rfl, rfl, rfl⟩
    exact ⟨v, m₂, old, hv, hold, hu, rfl⟩
  · rintro ⟨v, m₁, old, hv, hold, hu, rfl⟩
    exact ⟨v, m₁, hv, u, m₁, ⟨old, m₁, ⟨hold, rfl⟩, hu, rfl⟩, (), _, rfl, rfl, rfl⟩

theorem run_plain_eq_ok_iff (h : s.forest.kind? id = some (.assign target none operation)) :
    (evaluate (fuel + 1) s id).run.run m = (.ok u, left)
      ↔ ∃ m₁, (evaluate fuel s operation).run.run m = (.ok u, m₁)
        ∧ left = m₁.defining name u := by
  rw [run_evaluate_eq_ok_iff h]
  change (s.assign (evaluate fuel) target none operation).run.run m = _ ↔ _
  rw [assign, kind_eq_pure htarget, pure_bind]
  simp only [assignName, combined, run_bind_eq_ok_iff, run_define_eq_ok_iff, run_pure_eq_ok_iff]
  constructor
  · rintro ⟨v, m₁, hv, u', m₂, ⟨rfl, rfl⟩, -, m₃, rfl, rfl, rfl⟩
    exact ⟨m₂, hv, rfl⟩
  · rintro ⟨m₁, hu, rfl⟩
    exact ⟨u, m₁, hu, u, m₁, ⟨rfl, rfl⟩, (), _, rfl, rfl, rfl⟩

end Name

/-! ### Elements as the target -/

section Elements

variable (htarget : s.forest.kind? target = some (.call callee ids))
  (hcallee : s.forest.kind? callee = some (.name name))
include htarget hcallee

/-- A compound assignment evaluates the index arguments once. -/
theorem run_compoundElements_eq_ok_iff
    (h : s.forest.kind? id = some (.assign target (some op) value)) :
    (evaluate (fuel + 1) s id).run.run m = (.ok u, left)
      ↔ ∃ v m₁ old args m₂ w changed, (evaluate fuel s value).run.run m = (.ok v, m₁)
        ∧ m₁.environment.lookup name = some old
        ∧ (s.indexArguments (evaluate fuel) old ids).run.run m₁ = (.ok args, m₂)
        ∧ old.index args = .ok w ∧ Value.binary op w v = .ok u
        ∧ old.assignIndex args u = .ok changed ∧ left = m₂.defining name changed := by
  rw [run_evaluate_eq_ok_iff h]
  change (s.assign (evaluate fuel) target (some op) value).run.run m = _ ↔ _
  rw [assign, kind_eq_pure htarget, pure_bind]
  dsimp only
  rw [kind_eq_pure hcallee, pure_bind]
  simp only [assignElements, indexedVariable, combined, run_bind_eq_ok_iff,
    run_oldValue_eq_ok_iff, run_ofResult_eq_ok_iff, run_define_eq_ok_iff, run_pure_eq_ok_iff]
  constructor
  · rintro ⟨v, m₁, hv, old, m₂, ⟨hold, rfl⟩, args, m₃, hargs, u', m₄,
      ⟨w, m₅, ⟨hw, rfl⟩, hu, rfl⟩, changed, m₆, ⟨hchanged, rfl⟩, -, m₇, rfl, rfl, rfl⟩
    exact ⟨v, m₂, old, args, m₆, w, changed, hv, hold, hargs, hw, hu, hchanged, rfl⟩
  · rintro ⟨v, m₁, old, args, m₂, w, changed, hv, hold, hargs, hw, hu, hchanged, rfl⟩
    exact ⟨v, m₁, hv, old, m₁, ⟨hold, rfl⟩, args, m₂, hargs, u, m₂, ⟨w, m₂, ⟨hw, rfl⟩, hu, rfl⟩,
      changed, m₂, ⟨hchanged, rfl⟩, (), _, rfl, rfl, rfl⟩

theorem run_plainElements_eq_ok_iff
    (h : s.forest.kind? id = some (.assign target none operation)) :
    (evaluate (fuel + 1) s id).run.run m = (.ok u, left)
      ↔ ∃ m₁ args m₂ changed, (evaluate fuel s operation).run.run m = (.ok u, m₁)
        ∧ (s.indexArguments (evaluate fuel)
            ((m₁.environment.lookup name).getD Value.emptyMatrix) ids).run.run m₁ = (.ok args, m₂)
        ∧ ((m₁.environment.lookup name).getD Value.emptyMatrix).assignIndex args u = .ok changed
        ∧ left = m₂.defining name changed := by
  have hvisible (m : Machine) (old : Value) (left : Machine) :
      (indexedVariable name none).run.run m = (.ok old, left)
        ↔ old = (m.environment.lookup name).getD Value.emptyMatrix ∧ left = m :=
    run_pure_eq_ok_iff
  rw [run_evaluate_eq_ok_iff h]
  change (s.assign (evaluate fuel) target none operation).run.run m = _ ↔ _
  rw [assign, kind_eq_pure htarget, pure_bind]
  dsimp only
  rw [kind_eq_pure hcallee, pure_bind]
  simp only [assignElements, hvisible, combined, run_bind_eq_ok_iff, run_ofResult_eq_ok_iff,
    run_define_eq_ok_iff, run_pure_eq_ok_iff]
  constructor
  · rintro ⟨v, m₁, hv, old, m₂, ⟨rfl, rfl⟩, args, m₃, hargs, u', m₄, ⟨rfl, rfl⟩, changed, m₅,
      ⟨hchanged, rfl⟩, -, m₆, rfl, rfl, rfl⟩
    exact ⟨m₂, args, m₅, changed, hv, hargs, hchanged, rfl⟩
  · rintro ⟨m₁, args, m₂, changed, hu, hargs, hchanged, rfl⟩
    exact ⟨u, m₁, hu, _, m₁, ⟨rfl, rfl⟩, args, m₂, hargs, u, m₂, ⟨rfl, rfl⟩, changed, m₂,
      ⟨hchanged, rfl⟩, (), _, rfl, rfl, rfl⟩

end Elements

end Setting

end MatrixScript
