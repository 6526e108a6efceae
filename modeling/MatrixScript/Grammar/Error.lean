import MatrixScript.Diagnostic.Basic

/-!
# Reading errors

A failure to read a text has a cause, the place it is about, and the construct that was being read.
Registration conflicts are failures of the same kind, about no place.
-/

namespace MatrixScript

/-- Why an entry cannot be registered. -/
inductive GrammarError where
  | duplicate (table key : String)
  | emptySymbol
deriving DecidableEq

namespace GrammarError

def code : GrammarError → ErrorCode
  | duplicate .. => .duplicateRegistration
  | emptySymbol => .invalidSignature

def message : GrammarError → String
  | duplicate table key => table ++ " `" ++ key ++ "` is already registered"
  | emptySymbol => "invalid operator: symbol is empty"

end GrammarError

/-- The construct that was being read. -/
inductive Construct where
  | statement | group | arguments | matrix | block | abs
  | branch | whileLoop | forLoop
  | lambda | assignment | text
deriving DecidableEq

def Construct.description : Construct → String
  | .statement => "a statement"
  | .group => "a parenthesised expression"
  | .arguments => "an argument list"
  | .matrix => "a matrix literal"
  | .block => "a block"
  | .abs => "an absolute value"
  | .branch => "an if expression"
  | .whileLoop => "a while loop"
  | .forLoop => "a for loop"
  | .lambda => "a lambda"
  | .assignment => "an assignment"
  | .text => "a string literal"

/-- Why a text cannot be read. `found` is the next character, if any is left. -/
inductive ParseFault where
  | unexpected (found : Option Char)
  | expectedChar (expected : Char) (found : Option Char)
  | expectedExpression (found : Option Char)
  | unclosed (opening closing : Char)
  | noOperator (found : List Char)
  | invalidTarget (what : String)
  | invalidParameters
  | unterminated (what : String)
  | registration (cause : GrammarError)
  /-- A form that consumes nothing was read again and again. -/
  | stalled
deriving DecidableEq

namespace ParseFault

def code : ParseFault → ErrorCode
  | unexpected _ | expectedChar .. | stalled => .unexpectedInput
  | expectedExpression _ => .expectedExpression
  | unclosed .. => .unclosedDelimiter
  | noOperator _ => .noOperator
  | invalidTarget _ => .invalidTarget
  | invalidParameters => .invalidParameters
  | unterminated _ => .unterminatedText
  | registration cause => cause.code

/-- How messages name the next character. -/
def foundText : Option Char → String
  | none => "end of input"
  | some '\n' => "end of line"
  | some c => "`" ++ c.toString ++ "`"

def message : ParseFault → String
  | unexpected found => "unexpected " ++ foundText found
  | expectedChar expected found =>
    "expected `" ++ expected.toString ++ "`, found " ++ foundText found
  | expectedExpression found => "expected an expression, found " ++ foundText found
  | unclosed opening closing =>
    "unclosed `" ++ opening.toString ++ "`; expected `" ++ closing.toString ++ "`"
  | noOperator found => "no operator found for `" ++ String.ofList found ++ "`"
  | invalidTarget what => "cannot assign to " ++ what
  | invalidParameters =>
    "lambda parameters must be an identifier or a parenthesised list of identifiers"
  | unterminated what => "unterminated " ++ what
  | registration cause => cause.message
  | stalled => "the grammar makes no progress"

end ParseFault

structure ParseError where
  fault : ParseFault
  span : Span
  construct : Option Construct
deriving DecidableEq

namespace ParseError

def code (e : ParseError) : ErrorCode := e.fault.code

def message (e : ParseError) : String := e.fault.message

/-- Names the construct being read, unless an inner one is named already. -/
def within (e : ParseError) (construct : Construct) : ParseError :=
  { e with construct := e.construct.or (some construct) }

def ofGrammarError (cause : GrammarError) : ParseError := ⟨.registration cause, Span.none, none⟩

/-- The message with the offset it is about. -/
def text (e : ParseError) : String := e.message ++ " at " ++ toString e.span.start.toNat

def label (e : ParseError) : String :=
  match e.fault with
  | .noOperator _ => "no operator matches here"
  | _ => if e.span.isEmpty then "here" else "unexpected input"

def diagnostic (e : ParseError) : Diagnostic :=
  { code := e.code
    severity := .error
    message := e.message
    labels := [⟨e.span, e.label⟩]
    notes := (e.construct.map ("while parsing " ++ ·.description)).toList }

end ParseError

end MatrixScript
