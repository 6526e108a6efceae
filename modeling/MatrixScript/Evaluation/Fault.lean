import MatrixScript.Complex
import MatrixScript.Diagnostic.Basic

/-!
# Evaluation errors

A fault is why an operation on values fails; it knows nothing of the text that asked for the
operation. An evaluation error is a fault with the place it was noticed at.
-/

namespace MatrixScript

/-- What a value is, as messages and signatures name it. -/
inductive Kind where
  | scalar | matrix | string | range | set | function | plot
deriving DecidableEq, Inhabited

def Kind.text : Kind → String
  | .scalar => "scalar"
  | .matrix => "matrix"
  | .string => "string"
  | .range => "range"
  | .set => "set"
  | .function => "function"
  | .plot => "plot"

def Kind.all : List Kind := [.scalar, .matrix, .string, .range, .set, .function, .plot]

def Kind.ofText? (s : String) : Option Kind := Kind.all.find? (·.text == s)

inductive Fault where
  | symbolMissing (name : String)
  | dimensionMismatch (op : String) (left right : Nat × Nat)
  /-- A unary operator has no right operand. -/
  | unsupported (op : String) (left : Kind) (right : Option Kind)
  | noMatchingOverload (name : String) (args : List Kind)
  | ambiguousOverload (name : String) (args : List Kind) (candidates : Nat)
  | duplicateRegistration (name : String)
  | invalidSignature (name reason : String)
  /-- An argument is too small or too large. -/
  | argumentRange (message : String)
  /-- An argument is not one that the operation can use. -/
  | argumentValue (message : String)
  | notCallable (kind : Kind)
  | budgetExceeded (milliseconds : Nat)
  | recursionLimit (limit : Nat)
  | serialization (message : String)
deriving DecidableEq

abbrev Result := Except Fault

namespace Fault

def code : Fault → ErrorCode
  | symbolMissing _ => .symbolMissing
  | dimensionMismatch .. => .dimensionMismatch
  | unsupported .. => .unsupportedOperation
  | noMatchingOverload .. => .noMatchingOverload
  | ambiguousOverload .. => .ambiguousOverload
  | duplicateRegistration _ => .duplicateRegistration
  | invalidSignature .. => .invalidSignature
  | argumentRange _ => .argumentRange
  | argumentValue _ => .argumentValue
  | notCallable _ => .notCallable
  | budgetExceeded _ => .timeBudget
  | recursionLimit _ => .recursionLimit
  | serialization _ => .serialization

def shapeText (shape : Nat × Nat) : String := toString shape.1 ++ "x" ++ toString shape.2

def kindsText (kinds : List Kind) : String := ", ".intercalate (kinds.map Kind.text)

def message : Fault → String
  | symbolMissing name => "The symbol " ++ name ++ " could not be found."
  | dimensionMismatch op left right =>
    "dimension mismatch: cannot apply `" ++ op ++ "` to " ++ shapeText left ++ " and "
      ++ shapeText right
  | unsupported op left (some right) =>
    "operator `" ++ op ++ "` is not supported for " ++ left.text ++ " and " ++ right.text
  | unsupported op left none => "operator `" ++ op ++ "` is not supported for " ++ left.text
  | noMatchingOverload name args =>
    "no overload of " ++ name ++ " accepts (" ++ kindsText args ++ ")"
  | ambiguousOverload name args candidates =>
    "call to " ++ name ++ "(" ++ kindsText args ++ ") is ambiguous between "
      ++ toString candidates ++ " overloads"
  | duplicateRegistration name => name ++ " is already registered"
  | invalidSignature name reason => "invalid signature for " ++ name ++ ": " ++ reason
  | argumentRange message | argumentValue message => message
  | notCallable kind => "a " ++ kind.text ++ " value is not callable"
  | budgetExceeded milliseconds =>
    "evaluation exceeded its time budget of " ++ toString milliseconds ++ " ms"
  | recursionLimit limit =>
    "maximum recursion depth exceeded (limit: " ++ toString limit ++ ")"
  | serialization message => "value serialization failed: " ++ message

/-- An index, counted from one, that is not among those of its dimension. -/
def indexOutOfBounds (index : String) (extent : Nat) : Fault :=
  argumentRange
    ("index " ++ index ++ " is out of bounds; valid indices are 1 to " ++ toString extent)

end Fault

structure EvalError where
  fault : Fault
  span : Option Span
  notes : List String
deriving DecidableEq

namespace EvalError

def ofFault (fault : Fault) : EvalError := ⟨fault, none, []⟩

def code (e : EvalError) : ErrorCode := e.fault.code

def message (e : EvalError) : String := e.fault.message

/-- Places the error, unless it has been placed closer already. -/
def locatedAt (e : EvalError) (span : Span) : EvalError := { e with span := e.span.or (some span) }

def withNote (e : EvalError) (note : String) : EvalError := { e with notes := e.notes ++ [note] }

def diagnostic (e : EvalError) : Diagnostic :=
  { code := e.code
    severity := .error
    message := e.message
    labels := (e.span.map (⟨·, ""⟩)).toList
    notes := e.notes }

end EvalError

end MatrixScript
