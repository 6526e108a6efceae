import MatrixScript.Evaluation.Evaluator
import MatrixScript.Grammar.Standard
import MatrixScript.Library.Standard
import MatrixScript.Saved.Decode
import MatrixScript.Value.Basic

/-!
# Sessions

A session has variables, the grammar that its texts are read with, and the library that they can
use. A text is read as a whole before any of it runs; if it fails while it runs, the effects of what
came before the failure stay.
-/

namespace MatrixScript

structure Limits where
  /-- Calls of lambdas within one another. -/
  recursion : Nat
  /-- Milliseconds for each text, as many as it takes if there is no budget. -/
  budget : Option Nat
deriving DecidableEq

def Limits.standard : Limits := ⟨256, none⟩

structure Session where
  grammar : Grammar
  library : Library
  limits : Limits
  /-- The nanoseconds that a run has taken at each of its checks of the time. -/
  clock : Nat → Nat
  environment : Environment
  /-- The serial number of the next lambda. -/
  nextSerial : Nat

/-- A text that has been read. It can run any number of times, in any session. -/
structure Query where
  source : String
  program : Program

/-- Why a text has no result. -/
inductive QueryError where
  | unreadable (error : ParseError)
  | stopped (cause : Stop)
deriving DecidableEq

namespace QueryError

/-- The failure that a user sees. Programs that were read have no missing nodes, and running out of
fuel is no failure of the program. -/
def diagnostic? : QueryError → Option Diagnostic
  | unreadable e => some e.diagnostic
  | stopped (.failed e) => some e.diagnostic
  | stopped _ => none

end QueryError

/-- The value of the last statement that is not muted. -/
def lastValue? (outputs : List (Option Value)) : Option Value := outputs.reverse.findSome? id

namespace Session

/-- A session without variables, with a clock that goes on by a nanosecond from check to check. -/
def make (grammar : Grammar) (library : Library) (limits : Limits) : Session :=
  ⟨grammar, library, limits, (· + 1), Environment.empty, 0⟩

def standard : Session := make Grammar.standard Library.standard Limits.standard

/-- A session without variables that shares everything else. -/
def child (s : Session) : Session := { s with environment := Environment.empty }

def set (s : Session) (name : String) (v : Value) : Session :=
  { s with environment := s.environment.define name v }

def get? (s : Session) (name : String) : Option Value := s.environment.lookup name

/-- Binds a name to the value that bytes save. -/
def load (s : Session) (name : String) (bytes : List UInt8) : Result (Value × Session) := do
  let (v, next) := (← Value.ofBytes bytes).numbered.run s.nextSerial
  return (v, { s with nextSerial := next }.set name v)

def bind (s : Session) (bindings : List (String × Value)) : Session :=
  { s with environment := s.environment.defineAll bindings }

def parse (s : Session) (text : String) : Except QueryError Query :=
  match s.grammar.parse text.toList with
  | .ok program => .ok ⟨text, program⟩
  | .error e => .error (.unreadable e)

/-- Where the statements of a program start out. -/
def setting (s : Session) (forest : Forest) : Setting :=
  ⟨forest, s.library, s.limits.budget.map (⟨·, s.clock⟩), Depth.ofLimit s.limits.recursion⟩

/-- Runs a program. The fuel bounds how deep nodes nest and how often loops go round. -/
def execute (s : Session) (fuel : Nat) (q : Query) :
    Except QueryError (List (Option Value)) × Session :=
  let (outcome, m) :=
    ((s.setting q.program.forest).run fuel q.program.statements).run.run
      ⟨s.environment, 0, s.nextSerial, []⟩
  (outcome.mapError .stopped,
    { s with environment := m.environment, nextSerial := m.nextSerial })

/-- Reads a text and runs it. -/
def query (s : Session) (fuel : Nat) (text : String) :
    Except QueryError (List (Option Value)) × Session :=
  match s.parse text with
  | .ok q => s.execute fuel q
  | .error e => (.error e, s)

/-- Binds variables, then reads a text and runs it. -/
def queryWith (s : Session) (fuel : Nat) (bindings : List (String × Value)) (text : String) :
    Except QueryError (List (Option Value)) × Session :=
  (s.bind bindings).query fuel text

end Session

end MatrixScript
