import MatrixScript.Proofs.Eigenvalues.Sweeps
import MatrixScript.Proofs.Sorting

/-!
# The iteration for eigenvalues ends

A turn of the iteration in place finds a value and gives up a row, or makes a sweep, or gives up.
Sweeps are counted anew for each value, and there are three hundred of them at most, so a turn
leaves fewer active rows or fewer sweeps to be made. Nothing about the numbers is needed for this:
what is left of a row may be NaN forever.

From turn to turn, the values found so far and those that the active block will yield are together
the eigenvalues. So the iteration ends with all of them, or gives up where there are none.
-/

namespace MatrixScript

/-- The iteration in place, in front of one of its turns. -/
structure Iteration where
  work : Matrix
  active : Nat
  values : List Complex
  sweeps : Nat

namespace Iteration

/-- What the iteration has come to. -/
inductive Outcome
  | going (it : Iteration)
  | ended (values : List Complex)
  | stuck

def start (m : Matrix) : Iteration := ⟨m, m.rows, [], 0⟩

/-- The shift of the next sweep. -/
def shift? (it : Iteration) (last : Nat) (residue : Double) : Option Complex :=
  if (it.sweeps + 1) % Square.unusualEvery = 0 then
    (· + Complex.ofReal residue) <$> it.work.readActive? (last + 1) last last
  else it.work.trailingShift? (last + 1)

/-- One turn. It fails if it reaches for a cell outside of the active block. -/
def turn? (tolerance : Double) (it : Iteration) : Option Outcome :=
  match it.active with
  | 0 => some (.ended it.values)
  | last + 1 => do
    let residue ← it.work.residue? last
    if last = 0 ∨ residue.le tolerance = true then
      let value ← it.work.readActive? (last + 1) last last
      return .going ⟨it.work, last, it.values ++ [value], 0⟩
    else if it.sweeps = Square.sweepLimit then return .stuck
    else
      let work ← it.work.qrStep? (last + 1) (← it.shift? last residue)
      return .going ⟨work, last + 1, it.values, it.sweeps + 1⟩

/-- What the iteration has come to after some turns, or earlier. -/
def after? (tolerance : Double) : Nat → Iteration → Option Outcome
  | 0, it => some (.going it)
  | turns + 1, it => do
    match ← it.turn? tolerance with
    | .going next => after? tolerance turns next
    | outcome => return outcome

end Iteration

/-! ### What the active block yields -/

namespace Square

variable {tolerance : Double} {n sweeps : Nat}

/-- The eigenvalues of a block for the first of which some sweeps have been made. -/
def remaining? (tolerance : Double) (sweeps : Nat) : {n : Nat} → Square n → Option (List Complex)
  | 0, _ => some []
  | 1, a => some [a.get (Fin.last 0) (Fin.last 0)]
  | n + 2, a => do
    let a ← settle tolerance (sweepLimit - sweeps) a
    let rest ← eigenvalues? tolerance a.leading
    return a.get (Fin.last (n + 1)) (Fin.last (n + 1)) :: rest

theorem remaining?_zero (a : Square n) : a.remaining? tolerance 0 = a.eigenvalues? tolerance := by
  match n, a with
  | 0, _ => rfl
  | 1, _ => rfl
  | n + 2, a =>
      rw [remaining?, Nat.sub_zero, eigenvalues?]
      rfl

theorem remaining?_settled {a : Square (n + 1)} (h : n = 0 ∨ a.residue.le tolerance = true) :
    a.remaining? tolerance sweeps
      = (a.leading.remaining? tolerance 0).map
          (a.get (Fin.last n) (Fin.last n) :: ·) := by
  cases n with
  | zero => rfl
  | succ n =>
      have hle := h.resolve_left (Nat.succ_ne_zero n)
      have hsettled : settle tolerance (sweepLimit - sweeps) a = some a := by
        cases sweepLimit - sweeps <;> rw [settle, if_pos hle]
      rw [remaining?, hsettled, remaining?_zero, Option.map_eq_bind]
      rfl

theorem remaining?_stuck {a : Square (n + 2)} (h : ¬a.residue.le tolerance = true) :
    a.remaining? tolerance sweepLimit = none := by
  rw [remaining?, Nat.sub_self, settle, if_neg h]
  rfl

theorem remaining?_sweep {a : Square (n + 2)} (h : ¬a.residue.le tolerance = true)
    (hsweeps : sweeps < sweepLimit) :
    (a.qrStep (a.shiftFor (sweeps + 1))).remaining? tolerance (sweeps + 1)
      = a.remaining? tolerance sweeps := by
  have hleft : sweepLimit - sweeps = sweepLimit - (sweeps + 1) + 1 := by omega
  have hmade : sweepLimit - (sweepLimit - (sweeps + 1)) = sweeps + 1 := by omega
  rw [remaining?, remaining?, hleft, settle, if_neg h, hmade]

end Square

/-! ### One turn -/

namespace Iteration

variable {tolerance : Double} {all : Option (List Complex)} {work : Matrix} {n sweeps turns : Nat}
  {it next : Iteration}

/-- An iteration that leads to these values, or to none: they are those it has found, and behind
them those of the block that is left. -/
structure Leads (tolerance : Double) (all : Option (List Complex)) (n : Nat) (it : Iteration) :
    Prop where
  count : it.values.length + it.active = n
  sweeps_le : it.sweeps ≤ Square.sweepLimit
  block : ∃ a : Square it.active, it.work.Holds a
    ∧ (a.remaining? tolerance it.sweeps).map (it.values ++ ·) = all

/-- An outcome that agrees with the values that are to be found. -/
def Outcome.Agrees (tolerance : Double) (all : Option (List Complex)) (n : Nat) : Outcome → Prop
  | .going it => it.Leads tolerance all n
  | .ended values => all = some values
  | .stuck => all = none

/-- A turn that finds a value or makes a sweep. -/
inductive Advances (it next : Iteration) : Prop where
  | found (hactive : next.active + 1 = it.active)
  | swept (hactive : next.active = it.active) (hsweeps : next.sweeps = it.sweeps + 1)

theorem shift?_eq {a : Square (n + 2)} (ha : work.Holds a) (values : List Complex) (sweeps : Nat) :
    shift? ⟨work, n + 2, values, sweeps⟩ (n + 1) a.residue = some (a.shiftFor (sweeps + 1)) := by
  have hlast : n + 1 < n + 2 := Nat.lt_succ_self _
  unfold shift? Square.shiftFor
  rw [ha.read hlast hlast, ha.trailingShift]
  split <;> rfl

theorem turn?_found {a : Square (n + 1)} (ha : work.Holds a)
    (h : n = 0 ∨ a.residue.le tolerance = true) (values : List Complex) (sweeps : Nat) :
    turn? tolerance ⟨work, n + 1, values, sweeps⟩
      = some (.going ⟨work, n, values ++ [a.get (Fin.last n) (Fin.last n)], 0⟩) := by
  simp only [turn?, ha.residue, ha.read (Nat.lt_succ_self n) (Nat.lt_succ_self n),
    Option.bind_eq_bind, Option.bind_some, if_pos h]
  rfl

theorem turn?_stuck {a : Square (n + 2)} (ha : work.Holds a) (h : ¬a.residue.le tolerance = true)
    (values : List Complex) :
    turn? tolerance ⟨work, n + 2, values, Square.sweepLimit⟩ = some .stuck := by
  have hsettled : ¬(n + 1 = 0 ∨ a.residue.le tolerance = true) := not_or.mpr ⟨nofun, h⟩
  simp only [turn?, ha.residue, Option.bind_eq_bind, Option.bind_some, if_neg hsettled, if_true]
  rfl

theorem turn?_swept {a : Square (n + 2)} (ha : work.Holds a) (h : ¬a.residue.le tolerance = true)
    (values : List Complex) (hsweeps : sweeps < Square.sweepLimit) :
    ∃ work' : Matrix, work'.Holds (a.qrStep (a.shiftFor (sweeps + 1)))
      ∧ turn? tolerance ⟨work, n + 2, values, sweeps⟩
        = some (.going ⟨work', n + 2, values, sweeps + 1⟩) := by
  obtain ⟨work', hwork, ha'⟩ := ha.qrStep (a.shiftFor (sweeps + 1))
  have hsettled : ¬(n + 1 = 0 ∨ a.residue.le tolerance = true) := not_or.mpr ⟨nofun, h⟩
  refine ⟨work', ha', ?_⟩
  simp only [turn?, ha.residue, Option.bind_eq_bind, Option.bind_some, if_neg hsettled,
    if_neg (Nat.ne_of_lt hsweeps), shift?_eq ha, hwork]
  rfl

/-- All that a turn can do. -/
theorem Leads.turn?_cases (h : it.Leads tolerance all n) :
    it.active = 0 ∧ it.turn? tolerance = some (.ended it.values) ∧ all = some it.values
      ∨ it.turn? tolerance = some .stuck ∧ all = none
      ∨ ∃ next, it.turn? tolerance = some (.going next) ∧ next.Leads tolerance all n
          ∧ it.Advances next := by
  obtain ⟨work, active, values, sweeps⟩ := it
  obtain ⟨hcount, hsweeps, a, ha, hall⟩ := h
  dsimp only at hcount hsweeps ha hall
  match active, a with
  | 0, a =>
      refine .inl ⟨rfl, rfl, ?_⟩
      rw [← hall, Square.remaining?, Option.map_some, List.append_nil]
  | last + 1, a =>
      by_cases hsettled : last = 0 ∨ a.residue.le tolerance = true
      · refine .inr (.inr ⟨_, turn?_found ha hsettled values sweeps,
          ⟨?_, Nat.zero_le _, a.leading, ha.leading, ?_⟩, .found rfl⟩)
        · change (values ++ [_]).length + last = n
          rw [List.length_append, List.length_singleton]
          omega
        · rw [← hall, Square.remaining?_settled hsettled, Option.map_map]
          simp only [Function.comp_def, List.append_assoc, List.singleton_append]
      · obtain ⟨hmany, hle⟩ := not_or.mp hsettled
        obtain ⟨last, rfl⟩ := Nat.exists_eq_succ_of_ne_zero hmany
        rcases Nat.lt_or_eq_of_le hsweeps with hless | rfl
        · obtain ⟨work', ha', hturn⟩ := turn?_swept ha hle values hless
          refine .inr (.inr ⟨_, hturn, ⟨hcount, hless, _, ha', ?_⟩, .swept rfl rfl⟩)
          rw [← hall, Square.remaining?_sweep hle hless]
        · refine .inr (.inl ⟨turn?_stuck ha hle values, ?_⟩)
          rw [← hall, Square.remaining?_stuck hle, Option.map_none]

/-! ### Runs -/

theorem after?_going (h : it.turn? tolerance = some (.going next)) (turns : Nat) :
    it.after? tolerance (turns + 1) = next.after? tolerance turns := by
  rw [after?, h]
  rfl

theorem after?_ended {values : List Complex} (h : it.turn? tolerance = some (.ended values))
    (turns : Nat) : it.after? tolerance (turns + 1) = some (.ended values) := by
  rw [after?, h]
  rfl

theorem after?_stuck (h : it.turn? tolerance = some .stuck) (turns : Nat) :
    it.after? tolerance (turns + 1) = some .stuck := by
  rw [after?, h]
  rfl

theorem after?_add (h : it.after? tolerance turns = some (.going next)) (more : Nat) :
    it.after? tolerance (turns + more) = next.after? tolerance more := by
  induction turns generalizing it with
  | zero =>
      obtain rfl := Outcome.going.inj (Option.some.inj h)
      rw [Nat.zero_add]
  | succ turns ih =>
      rw [Nat.succ_add]
      cases hturn : it.turn? tolerance with
      | none =>
          rw [after?, hturn] at h
          cases h
      | some outcome =>
          cases outcome with
          | going it' =>
              rw [after?_going hturn] at h ⊢
              exact ih h
          | ended values =>
              rw [after?_ended hturn] at h
              cases h
          | stuck =>
              rw [after?_stuck hturn] at h
              cases h

/-- No turn reaches for a cell outside of the active block. -/
theorem Leads.agrees (h : it.Leads tolerance all n) (turns : Nat) :
    ∃ outcome, it.after? tolerance turns = some outcome ∧ outcome.Agrees tolerance all n := by
  induction turns generalizing it with
  | zero => exact ⟨.going it, rfl, h⟩
  | succ turns ih =>
      rcases h.turn?_cases with ⟨-, hturn, hall⟩ | ⟨hturn, hall⟩ | ⟨next, hturn, hnext, -⟩
      · exact ⟨.ended it.values, after?_ended hturn turns, hall⟩
      · exact ⟨.stuck, after?_stuck hturn turns, hall⟩
      · rw [after?_going hturn]
        exact ih hnext

theorem Leads.of_after? (h : it.Leads tolerance all n)
    (hafter : it.after? tolerance turns = some (.going next)) : next.Leads tolerance all n := by
  obtain ⟨outcome, houtcome, hagrees⟩ := h.agrees turns
  obtain rfl := Option.some.inj (hafter.symm.trans houtcome)
  exact hagrees

/-- The next value is found, or none is found, before more sweeps are made than there may be. -/
theorem Leads.finds (h : it.Leads tolerance all n) (hactive : 0 < it.active) :
    ∃ turns ≤ Square.sweepLimit + 1 - it.sweeps, it.after? tolerance turns = some .stuck
      ∨ ∃ next, it.after? tolerance turns = some (.going next) ∧ next.active + 1 = it.active := by
  -- on the sweeps that are left, since a turn that does not find the value makes one
  induction hleft : Square.sweepLimit - it.sweeps using Nat.strong_induction_on generalizing it with
  | h left ih =>
      have hsweeps := h.sweeps_le
      have hone : 1 ≤ Square.sweepLimit + 1 - it.sweeps := by omega
      rcases h.turn?_cases with ⟨hnone, -, -⟩ | ⟨hturn, -⟩ | ⟨next, hturn, hnext, hadvances⟩
      · omega
      · exact ⟨1, hone, .inl (after?_stuck hturn 0)⟩
      · cases hadvances with
        | found hfewer => exact ⟨1, hone, .inr ⟨next, after?_going hturn 0, hfewer⟩⟩
        | swept hsame hswept =>
            have hle := hnext.sweeps_le
            obtain ⟨turns, hturns, hafter⟩ :=
              ih _ (by omega) hnext (hsame ▸ hactive) rfl
            refine ⟨turns + 1, by omega, ?_⟩
            rwa [after?_going hturn, ← hsame]

/-- A value is found for each row, or none for one of them. -/
theorem Leads.ends (h : it.Leads tolerance all n) :
    ∃ turns ≤ (Square.sweepLimit + 1) * it.active + 1, it.after? tolerance turns = some .stuck
      ∨ ∃ values, it.after? tolerance turns = some (.ended values) := by
  induction hactive : it.active generalizing it with
  | zero =>
      have hturn : it.turn? tolerance = some (.ended it.values) := by rw [turn?, hactive]
      exact ⟨1, Nat.le_add_left 1 _, .inr ⟨_, after?_ended hturn 0⟩⟩
  | succ active ih =>
      have hrows : (Square.sweepLimit + 1) * (active + 1)
          = (Square.sweepLimit + 1) * active + (Square.sweepLimit + 1) := Nat.mul_succ _ _
      obtain ⟨turns, hturns, hstuck | ⟨next, hnext, hfewer⟩⟩ := h.finds (by omega)
      · exact ⟨turns, by omega, .inl hstuck⟩
      · obtain ⟨more, hmore, hafter⟩ := ih (h.of_after? hnext) (by omega)
        refine ⟨turns + more, by omega, ?_⟩
        rwa [after?_add hnext]

theorem Leads.start {m : Matrix} (h : m.WellFormed) (hsquare : m.rows = m.cols) :
    (Iteration.start m).Leads tolerance ((Square.ofMatrix m).eigenvalues? tolerance) m.rows where
  count := Nat.zero_add _
  sweeps_le := Nat.zero_le _
  block := by
    refine ⟨Square.ofMatrix m, .ofMatrix h hsquare, ?_⟩
    rw [← Square.remaining?_zero]
    exact Option.map_id'

/-- An iteration on `n` rows that has not ended. Each active row is a value that is missing. There
have been no more sweeps for the next one than there may be, and with those that are left the value
is found, unless there is an end without it. -/
structure Bounded (tolerance : Double) (n : Nat) (it : Iteration) : Prop where
  count : it.values.length + it.active = n
  sweeps_le : it.sweeps ≤ Square.sweepLimit
  finds : 0 < it.active → ∃ turns ≤ Square.sweepLimit + 1 - it.sweeps,
    it.after? tolerance turns = some .stuck ∨ ∃ next, it.after? tolerance turns = some (.going next)
      ∧ next.values.length = it.values.length + 1

theorem Leads.bounded (h : it.Leads tolerance all n) : it.Bounded tolerance n where
  count := h.count
  sweeps_le := h.sweeps_le
  finds hactive := by
    obtain ⟨turns, hturns, hafter⟩ := h.finds hactive
    refine ⟨turns, hturns, hafter.imp_right ?_⟩
    rintro ⟨next, hnext, hfewer⟩
    have hcount := h.count
    have hcount' := (h.of_after? hnext).count
    exact ⟨next, hnext, by omega⟩

end Iteration

namespace Matrix

variable {m : Matrix}

/-- What counts as nothing in the iteration on a matrix. -/
def tolerance (m : Matrix) : Double := Double.epsilon * m.norm.max Double.leastNormal

/-- The result on a matrix, with which the iteration ends. -/
def EndsWith (m : Matrix) (result : Result (List Complex)) : Iteration.Outcome → Prop
  | .going _ => False
  | .stuck => result = .error (.argumentValue "the eigenvalue iteration did not converge")
  | .ended values => ∃ sorted, result = .ok sorted ∧ sorted.length = m.rows
      ∧ sorted.Perm (values.map (dropNoise m.tolerance)) ∧ Complex.Ascending sorted

theorem eigenvalues_eq (hsquare : m.rows = m.cols) : m.eigenvalues
    = match (Square.ofMatrix m).eigenvalues? m.tolerance with
      | none => .error (.argumentValue "the eigenvalue iteration did not converge")
      | some values => .ok ((values.map (dropNoise m.tolerance)).mergeSort
          fun z w => z.totalCompare w != .gt) := by
  have hshape : m.requireSquare "eig" = .ok () := if_pos (decide_eq_true hsquare)
  rw [eigenvalues, hshape]
  change (match (Square.ofMatrix m).eigenvalues? m.tolerance with
    | none => _
    | some values => _) = _
  cases (Square.ofMatrix m).eigenvalues? m.tolerance <;> rfl

/-- The iteration for the eigenvalues of a square matrix, run on the matrix in place. However far it
has been run, no cell outside of the active block has been reached for, and there have been no more
sweeps for the next value than there may be. It ends, and then the result is an error or there are
as many values as rows, in ascending order. -/
theorem eigenvalues_ends (h : m.WellFormed) (hsquare : m.rows = m.cols) :
    (∀ turns, ∃ outcome, (Iteration.start m).after? m.tolerance turns = some outcome
      ∧ ∀ it, outcome = .going it → it.Bounded m.tolerance m.rows)
    ∧ ∃ turns ≤ (Square.sweepLimit + 1) * m.rows + 1, ∃ outcome,
      (Iteration.start m).after? m.tolerance turns = some outcome
        ∧ m.EndsWith m.eigenvalues outcome := by
  have hleads : (Iteration.start m).Leads m.tolerance _ m.rows := .start h hsquare
  constructor
  · intro turns
    obtain ⟨outcome, houtcome, hagrees⟩ := hleads.agrees turns
    refine ⟨outcome, houtcome, ?_⟩
    rintro it rfl
    exact Iteration.Leads.bounded hagrees
  · obtain ⟨turns, hturns, hend⟩ := hleads.ends
    obtain ⟨outcome, houtcome, hagrees⟩ := hleads.agrees turns
    refine ⟨turns, hturns, outcome, houtcome, ?_⟩
    rw [eigenvalues_eq hsquare]
    rcases hend with hstuck | ⟨values, hended⟩
    · obtain rfl := Option.some.inj (hstuck.symm.trans houtcome)
      have hnone : (Square.ofMatrix m).eigenvalues? m.tolerance = none := hagrees
      rw [hnone]
      rfl
    · obtain rfl := Option.some.inj (hended.symm.trans houtcome)
      have hvalues : (Square.ofMatrix m).eigenvalues? m.tolerance = some values := hagrees
      rw [hvalues]
      refine ⟨_, rfl, ?_, List.mergeSort_perm _ _, Complex.ascending_mergeSort _⟩
      rw [List.length_mergeSort, List.length_map, Square.eigenvalues?_length hvalues]

/-- A matrix with a NaN, beside which nothing counts as nothing. -/
theorem eigenvalues_ends_nan :
    let m : Matrix := ⟨2, 2, #[⟨.nan, .zero⟩, .one, .one, .zero]⟩
    (m.WellFormed ∧ m.rows = m.cols)
      ∧ ∃ turns ≤ 603, ∃ outcome, (Iteration.start m).after? m.tolerance turns = some outcome
        ∧ m.EndsWith m.eigenvalues outcome := by
  intro m
  have h : m.WellFormed := ⟨rfl, by decide⟩
  exact ⟨⟨h, rfl⟩, (eigenvalues_ends h rfl).2⟩

end Matrix

end MatrixScript
