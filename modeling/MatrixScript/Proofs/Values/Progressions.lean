import MatrixScript.Proofs.Construction
import MatrixScript.Proofs.Values.Doubles
import MatrixScript.Proofs.Values.Matrices
import MatrixScript.Value.Operators

/-!
# Ranges

A range that may exist takes fewer steps than a matrix has elements at most, so the column of its
elements is a matrix.

Between two numbers a colon makes the range that goes from the one to the other in steps of one,
upwards or downwards. Such a range on the right of another colon gives up its step: its numbers
become the step and the end. By then it has been checked as a range of its own, and it may have too
many elements where the range that it becomes a part of has few.
-/

namespace MatrixScript

namespace Progression

variable {r : Progression}

theorem exists_values? {stop : Double} (h : r.stop = .at stop) :
    ∃ values, r.values? = some values := by
  simp only [values?, length?, steps?, h, Option.map_some, Option.some.injEq, exists_eq']

theorem resolve_of_values? {values : Array Double}
    (h : r.values? = some values) (extent : Double) : r.resolve extent = .ok r := by
  unfold resolve
  cases hstop : r.stop with
  | «at» stop => rfl
  | «open» =>
      simp only [values?, length?, steps?, hstop, Option.map_none] at h
      cases h

theorem WellFormed.length_le (h : r.WellFormed) {n : Nat} (hn : r.length? = some n) :
    n ≤ elementLimit := by
  obtain ⟨steps, hsteps, rfl⟩ := Option.map_eq_some_iff.mp hn
  have hlong := h.not_tooLong
  rw [isTooLong, hsteps, Option.any_some] at hlong
  split
  · exact Nat.zero_le _
  · rename_i hbounded
    simp only [Bool.or_eq_true, Bool.not_eq_true', not_or, Bool.not_eq_true,
      Bool.not_eq_false] at hbounded
    have hlt := Double.toCount_floor_lt hbounded.2 hbounded.1 hlong
    exact Nat.le_trans (Nat.min_le_left _ _) hlt

theorem WellFormed.values_size_le (h : r.WellFormed) {values : Array Double}
    (hvalues : r.values? = some values) : values.size ≤ elementLimit := by
  obtain ⟨n, hn, rfl⟩ := Option.map_eq_some_iff.mp hvalues
  rw [Array.size_ofFn]
  exact h.length_le hn

theorem WellFormed.toMatrix (h : r.WellFormed) {m : Matrix} (hm : r.toMatrix? = some m) :
    m.WellFormed := by
  obtain ⟨values, hvalues, rfl⟩ := Option.map_eq_some_iff.mp hm
  refine Matrix.wellFormed_columnVector ?_
  rw [Array.size_map]
  exact h.values_size_le hvalues

theorem make_yields (start step : Double) (stop : Bound) :
    Yields (make start step stop) WellFormed :=
  fun _ h => (make_eq_ok_iff.mp h).2

theorem resolve_yields (h : r.WellFormed) (extent : Double) :
    Yields (r.resolve extent) WellFormed := by
  unfold resolve
  split
  · exact make_yields _ _ _
  · exact yields_ok h

/-! ### The operands of a colon -/

/-- Why a range with too many elements is refused. -/
def excess (r : Progression) : Fault :=
  .argumentRange ("the range " ++ r.text ++ " exceeds the limit of " ++ toString elementLimit
    ++ " elements")

/-- From one number to another in steps of one, downwards if the second one is less. -/
def byOnes (x y : Double) : Progression := ⟨x, if y.lt x then -Double.one else Double.one, .at y⟩

variable {start step : Double}

/-- With a step that is a number other than zero, only the length matters. -/
theorem make_of_step (hzero : step.isZero = false) (hnan : step.isNaN = false) (stop : Bound) :
    make start step stop
      = if isTooLong ⟨start, step, stop⟩ then .error (excess ⟨start, step, stop⟩)
        else .ok ⟨start, step, stop⟩ := by
  unfold make
  rw [hzero, hnan]
  rfl

theorem make_open (hzero : step.isZero = false) (hnan : step.isNaN = false) :
    make start step .open = .ok ⟨start, step, .open⟩ :=
  make_of_step hzero hnan .open

theorem make_byOnes (x y : Double) :
    make x (byOnes x y).step (.at y)
      = if (byOnes x y).isTooLong then .error (byOnes x y).excess else .ok (byOnes x y) := by
  have hstep : (byOnes x y).step.isZero = false ∧ (byOnes x y).step.isNaN = false := by
    change Double.isZero (if y.lt x then -Double.one else Double.one) = false
      ∧ Double.isNaN (if y.lt x then -Double.one else Double.one) = false
    split
    · exact ⟨by decide, by decide⟩
    · exact ⟨by decide, by decide⟩
  exact make_of_step hstep.1 hstep.2 (.at y)

end Progression

namespace Value

variable {u v w : Value} {x y : Double}

/-- A real number bounds a range, whatever stands on the other side of the colon. -/
theorem rangeBound_of_real? (h : v.real? = some x) (other : Option Value) :
    v.rangeBound other = .ok x := by
  obtain ⟨z, hz, rfl⟩ := Option.map_eq_some_iff.mp h
  obtain ⟨hscalar, hreal⟩ := Option.filter_eq_some_iff.mp hz
  unfold rangeBound
  rw [hscalar]
  exact if_pos hreal

theorem rangeStart_of_real? (h : v.real? = some x) (right : Option Value) :
    v.rangeStart right = .ok (x, none) := by
  unfold rangeStart
  split
  · cases h
  · cases h
  · rw [rangeBound_of_real? h]
    rfl

theorem makeRange_none (hu : u.real? = some x) :
    makeRange u none = range <$> Progression.make x Double.one .open := by
  unfold makeRange
  rw [rangeStart_of_real? hu]
  simp only [bind, Except.bind, pure, Except.pure, Option.getD_none]

theorem makeRange_real? (hu : u.real? = some x) (hv : v.real? = some y) :
    makeRange u (some v)
      = if (Progression.byOnes x y).isTooLong then .error (Progression.byOnes x y).excess
        else .ok (range (Progression.byOnes x y)) := by
  have hmake : makeRange u (some v)
      = range <$> Progression.make x (Progression.byOnes x y).step (.at y) := by
    unfold makeRange
    rw [rangeStart_of_real? hu]
    split
    · rename_i hsome
      cases hsome
    · rename_i hsome
      cases hsome
      cases hv
    · rename_i hsome
      cases hsome
      rw [rangeBound_of_real? hv]
      rfl
  rw [hmake, Progression.make_byOnes]
  split <;> rfl

/-- The step of a range on the right is lost. -/
theorem makeRange_range (hu : u.real? = some x) (r : Progression) :
    makeRange u (some (range r)) = range <$> Progression.make x r.start r.stop := by
  unfold makeRange
  rw [rangeStart_of_real? hu]
  rfl

end Value

end MatrixScript
