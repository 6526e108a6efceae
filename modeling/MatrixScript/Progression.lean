import MatrixScript.Matrix.Basic

/-!
# Progressions

A range `start:step:end` is kept as its three numbers and spelled out only when its elements are
needed. Its end may be open, to be bound by whoever uses the range as an index. The step is neither
zero nor NaN, and a bounded range never has more elements than a matrix may have; a step that leads
away from the end makes the range empty.
-/

namespace MatrixScript

inductive Bound where
  | at (value : Double)
  | open
deriving DecidableEq

structure Progression where
  start : Double
  step : Double
  stop : Bound
deriving DecidableEq

namespace Progression

/-- Slack in counting, so that `0:0.1:0.3` keeps its last element. -/
def countSlack : Double := ⟨0x3DDB7CDFD9D7BDBB⟩

/-- The steps from the start to a bounded end, with some slack. -/
def steps? (r : Progression) : Option Double :=
  match r.stop with
  | .at stop => some ((stop - r.start) / r.step + countSlack)
  | .open => none

def stopText : Bound → String
  | .at stop => stop.text
  | .open => "end"

def text (r : Progression) : String :=
  r.start.text ++ ":" ++ r.step.text ++ ":" ++ stopText r.stop

/-- Whether a bounded range has too many elements. -/
def isTooLong (r : Progression) : Bool :=
  r.steps?.any fun steps => (Double.ofNat elementLimit).le steps

/-- A range that may exist. -/
structure WellFormed (r : Progression) : Prop where
  step_nonzero : r.step.isZero = false
  step_number : r.step.isNaN = false
  not_tooLong : r.isTooLong = false

/-- The range with these numbers, unless it may not exist. -/
def make (start step : Double) (stop : Bound) : Result Progression :=
  let r : Progression := ⟨start, step, stop⟩
  if step.isZero || step.isNaN then .error (.argumentValue "the step of a range must be non-zero")
  else if r.isTooLong then
    .error <| .argumentRange <|
      "the range " ++ r.text ++ " exceeds the limit of " ++ toString elementLimit ++ " elements"
  else .ok r

def isOpen (r : Progression) : Bool := r.stop = .open

/-- Binds an open end. -/
def resolve (r : Progression) (extent : Double) : Result Progression :=
  match r.stop with
  | .open => make r.start r.step (.at extent)
  | .at _ => .ok r

/-- The number of elements, unknown while the end is open. -/
def length? (r : Progression) : Option Nat :=
  r.steps?.map fun steps =>
    if steps.lt Double.zero || !steps.isFinite then 0
    else min (steps.floor.toCount + 1) 18446744073709551615

def isEmpty (r : Progression) : Bool := r.length? = some 0

/-- The element with number `k`. -/
def element (r : Progression) (k : Nat) : Double := r.start + Double.ofNat k * r.step

/-- The elements in order. -/
def values? (r : Progression) : Option (Array Double) :=
  r.length?.map fun n => Array.ofFn fun k : Fin n => r.element k

/-- The elements as a column. -/
def toMatrix? (r : Progression) : Option Matrix :=
  r.values?.map fun values => Matrix.columnVector (values.map Complex.ofReal)

/-- The numbers of two ranges are equal. -/
def eq (r s : Progression) : Bool :=
  r.start.eq s.start && r.step.eq s.step &&
    match r.stop, s.stop with
    | .at x, .at y => x.eq y
    | .open, .open => true
    | _, _ => false

end Progression

end MatrixScript
