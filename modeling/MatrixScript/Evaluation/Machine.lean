import MatrixScript.Library.Basic

/-!
# The machine

Evaluation works on the variables. It ends with a value, or it stops: with an error, at a link that
leads to no node, or because its fuel is used up. Whatever happens, what it did to the variables up
to then stays.

A limit of time is checked before each statement and each round of a loop. What the clock shows at
these checks is given from outside, and nothing is assumed of it. Lambdas are numbered in the order
in which they are made. The calls that are under way are counted against a limit, and at the limit
no further call can start.
-/

namespace MatrixScript

structure Depth where
  depth : Nat
  limit : Nat
deriving DecidableEq

namespace Depth

def ofLimit (limit : Nat) : Depth := ⟨0, limit⟩

/-- One call deeper, unless the limit is reached. -/
def enter? (d : Depth) : Option Depth :=
  if d.depth < d.limit then some { d with depth := d.depth + 1 } else none

/-- One call less; there are never fewer than none. -/
def leave (d : Depth) : Depth := { d with depth := d.depth - 1 }

end Depth

/-! ### Machines -/

/-- Why an evaluation ends without a value. -/
inductive Stop where
  | failed (error : EvalError)
  | missingNode (id : NodeId)
  | outOfFuel
deriving DecidableEq

structure Machine where
  environment : Environment
  /-- The checks of the time that have been made. -/
  checks : Nat
  /-- The serial number of the next lambda. -/
  nextSerial : Nat
  /-- What `end` stands for in the index arguments under way in the body that runs, the innermost
  one first. -/
  extents : List (Option Nat)

abbrev Evaluation := ExceptT Stop (StateM Machine)

/-- A limit of time, and the clock that it is checked against. -/
structure Deadline where
  /-- The milliseconds that may pass. -/
  budget : Nat
  /-- The nanoseconds that have passed at each check. -/
  elapsed : Nat → Nat

/-- Whether the time is over at a check. -/
def Deadline.isOver (d : Deadline) (check : Nat) : Bool := d.budget * 1000000 < d.elapsed check

/-- What stays the same while one body is evaluated. -/
structure Setting where
  /-- The nodes of the body. -/
  forest : Forest
  library : Library
  deadline : Option Deadline
  /-- The calls of lambdas that are under way. -/
  depth : Depth

/-- Evaluates a node. -/
abbrev Evaluator := Setting → NodeId → Evaluation Value

namespace Evaluation

def fail {α : Type} (fault : Fault) : Evaluation α := throw (.failed (.ofFault fault))

def ofResult {α : Type} : Result α → Evaluation α
  | .ok x => return x
  | .error fault => fail fault

/-- The value, or an error. -/
def orFail {α : Type} (x : Option α) (fault : Fault) : Evaluation α :=
  ofResult (x.elim (.error fault) .ok)

/-- Lets a library function work on the variables. -/
def native {α : Type} (x : ExceptT Fault (StateM Environment) α) : Evaluation α :=
  ExceptT.mk fun m =>
    let (r, e) := x.run.run m.environment
    (r.mapError fun fault => .failed (.ofFault fault), { m with environment := e })

/-- The visible value of a variable. -/
def visible? (name : String) : Evaluation (Option Value) :=
  return (← get).environment.lookup name

def modifyEnvironment (f : Environment → Environment) : Evaluation Unit :=
  modify fun m => { m with environment := f m.environment }

def define (name : String) (v : Value) : Evaluation Unit := modifyEnvironment (·.define name v)

/-- The value of `end`. -/
def lastIndex : Evaluation Value := do
  match (← get).extents with
  | some n :: _ => return .ofNat n
  | none :: _ => fail (.argumentValue "`end` has no extent for this value")
  | [] => fail (.argumentValue "`end` is only valid inside an index expression")

/-- A serial number that no lambda has yet. -/
def freshSerial : Evaluation Nat :=
  modifyGet fun m => (m.nextSerial, { m with nextSerial := m.nextSerial + 1 })

/-- Places an error at a span, unless it has been placed closer already. -/
def locatedAt {α : Type} (x : Evaluation α) (span : Span) : Evaluation α :=
  ExceptT.mk do
    return (← x.run).mapError fun
      | .failed e => .failed (e.locatedAt span)
      | stop => stop

/-- Lets `end` stand for an extent, which is taken back however the evaluation ends. -/
def withExtent {α : Type} (extent : Option Nat) (x : Evaluation α) : Evaluation α :=
  ExceptT.mk do
    modify fun m => { m with extents := extent :: m.extents }
    let r ← x.run
    modify fun m => { m with extents := m.extents.tail }
    return r

/-- Runs the body of a call in a scope of its own, where no index argument is under way. The spans
of the body belong to the text that the function was written in, so an error leaves without one. -/
def inScope {α : Type} (bindings : List (String × Value)) (x : Evaluation α) : Evaluation α :=
  ExceptT.mk do
    let caller ← get
    set { caller with environment := caller.environment.push.defineAll bindings, extents := [] }
    let r ← x.run
    modify fun m => { m with environment := m.environment.pop, extents := caller.extents }
    return r.mapError fun
      | .failed e => .failed { e with span := none }
      | stop => stop

end Evaluation

namespace Setting

/-- Checks the time, and fails if it is over. -/
def check (s : Setting) : Evaluation Unit :=
  match s.deadline with
  | none => return ()
  | some deadline => do
    let n ← modifyGet fun m => (m.checks, { m with checks := m.checks + 1 })
    if deadline.isOver n then Evaluation.fail (.budgetExceeded deadline.budget)

def node (s : Setting) (id : NodeId) : Evaluation Node :=
  match s.forest.get? id with
  | some node => return node
  | none => throw (.missingNode id)

def kind (s : Setting) (id : NodeId) : Evaluation (NodeKind NodeId) := return (← s.node id).kind

/-- The value of a name: of a variable, or of what the library has. -/
def lookup (s : Setting) (name : String) : Evaluation Value := do
  let v ← Evaluation.visible? name
  Evaluation.orFail (v.or (s.library.value? name)) (.symbolMissing name)

end Setting

end MatrixScript
