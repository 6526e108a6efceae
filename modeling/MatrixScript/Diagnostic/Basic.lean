import MatrixScript.Source.Span

/-!
# Diagnostics

A diagnostic is one report: its code and message, labels on places of the text, and notes. Rendered,
each label shows its line with carets below the place:

    error[E1002]: expected an expression, found end of input
     --> 1:3
      |
    1 | 2+
      |   ^ here

The first digit of a code names the phase: 1 for reading, 2 for registration, 6 for evaluation.
-/

namespace MatrixScript

inductive ErrorCode where
  | unexpectedInput | expectedExpression | unclosedDelimiter | noOperator
  | invalidTarget | invalidParameters | unterminatedText
  | duplicateRegistration | invalidSignature
  | symbolMissing | dimensionMismatch | unsupportedOperation | noMatchingOverload
  | ambiguousOverload | argumentRange | argumentValue | notCallable
  | timeBudget | recursionLimit | serialization
deriving DecidableEq, Inhabited

namespace ErrorCode

def all : List ErrorCode :=
  [unexpectedInput, expectedExpression, unclosedDelimiter, noOperator, invalidTarget,
    invalidParameters, unterminatedText, duplicateRegistration, invalidSignature, symbolMissing,
    dimensionMismatch, unsupportedOperation, noMatchingOverload, ambiguousOverload, argumentRange,
    argumentValue, notCallable, timeBudget, recursionLimit, serialization]

def text : ErrorCode → String
  | unexpectedInput => "E1001"
  | expectedExpression => "E1002"
  | unclosedDelimiter => "E1003"
  | noOperator => "E1004"
  | invalidTarget => "E1005"
  | invalidParameters => "E1006"
  | unterminatedText => "E1007"
  | duplicateRegistration => "E2001"
  | invalidSignature => "E2002"
  | symbolMissing => "E6001"
  | dimensionMismatch => "E6002"
  | unsupportedOperation => "E6003"
  | noMatchingOverload => "E6004"
  | ambiguousOverload => "E6005"
  | argumentRange => "E6006"
  | argumentValue => "E6007"
  | notCallable => "E6008"
  | timeBudget => "E6009"
  | recursionLimit => "E6010"
  | serialization => "E6011"

def description : ErrorCode → String
  | unexpectedInput => "unexpected input"
  | expectedExpression => "expected expression"
  | unclosedDelimiter => "unclosed delimiter"
  | noOperator => "no operator found"
  | invalidTarget => "invalid assignment target"
  | invalidParameters => "invalid lambda parameters"
  | unterminatedText => "unterminated literal or comment"
  | duplicateRegistration => "duplicate registration"
  | invalidSignature => "invalid overload signature"
  | symbolMissing => "symbol missing"
  | dimensionMismatch => "dimension mismatch"
  | unsupportedOperation => "unsupported operation"
  | noMatchingOverload => "no matching overload"
  | ambiguousOverload => "ambiguous overload"
  | argumentRange => "argument out of range"
  | argumentValue => "invalid argument value"
  | notCallable => "value is not callable"
  | timeBudget => "time budget exceeded"
  | recursionLimit => "recursion limit exceeded"
  | serialization => "serialization failed"

def isParseError (c : ErrorCode) : Bool := c.text.startsWith "E1"

def isEvalError (c : ErrorCode) : Bool := c.text.startsWith "E6"

/-- Reads a code; small letters count as capitals. -/
def ofText? (s : String) : Option ErrorCode :=
  all.find? fun c => c.text.toList == s.toList.map Char.toUpper

end ErrorCode

/-! ### Reports -/

inductive Severity where
  | error | note
deriving DecidableEq

def Severity.text : Severity → String
  | .error => "error"
  | .note => "note"

structure Label where
  span : Span
  message : String
deriving DecidableEq

structure Diagnostic where
  code : ErrorCode
  severity : Severity
  message : String
  labels : List Label
  notes : List String
deriving DecidableEq

namespace Diagnostic

/-- One line without a place. -/
def text (d : Diagnostic) : String :=
  d.severity.text ++ " [" ++ d.code.text ++ "]: " ++ d.message

def primarySpan? (d : Diagnostic) : Option Span := d.labels.head?.map (·.span)

def spaces (n : Nat) : String := "".pushn ' ' n

/-- The line below the text: blanks up to the column, then carets, at least one. -/
def caretLine (gutter column : Nat) (label : Label) : String :=
  spaces gutter ++ " | " ++ spaces (column - 1) ++ "".pushn '^' (max label.span.length 1)
    ++ (if label.message.isEmpty then "" else " " ++ label.message)

/-- The lines that show one label. -/
def labelLines (table : LineTable) (label : Label) : List String :=
  let (line, column) := table.position label.span.start.toNat
  let number := toString line
  let gutter := number.length
  [ spaces gutter ++ "--> " ++ number ++ ":" ++ toString column,
    spaces gutter ++ " |",
    number ++ " | " ++ String.ofList (table.textOf line),
    caretLine gutter column label ]

/-- The report for the text it is about, every line with its newline. -/
def render (d : Diagnostic) (source : List Char) : String :=
  let table := LineTable.ofText source
  let head := d.severity.text ++ "[" ++ d.code.text ++ "]: " ++ d.message
  let lines := head :: d.labels.flatMap (labelLines table) ++ d.notes.map ("  = note: " ++ ·)
  String.join (lines.map (· ++ "\n"))

end Diagnostic

end MatrixScript
