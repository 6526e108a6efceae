import MatrixScript.Decimal.Basic
import MatrixScript.Grammar.Operators
import MatrixScript.Text.Ranges
import MatrixScript.Text.Alphabetic

/-!
# The standard forms

How operands are read: control flow, literals, names, and what stands between delimiters. A form
reads only text that it has accepted.
-/

namespace MatrixScript

variable {M : Type → Type} [Monad M] [MonadReading M]

namespace Surroundings

/-- Passes a keyword if it comes next, looking past newlines; otherwise nothing is passed. -/
def eatWord (s : Surroundings M) (word : List Char) : M Bool := do
  let before ← Reading.cursor
  let _ ← s.skip
  s.skipLines (← rounds)
  if startsWithWord word (← Reading.cursor).rest then
    Reading.advance (byteCount word)
    return true
  else
    Reading.moveTo before
    return false

end Surroundings

namespace Form

/-- A form that starts with a keyword and reads the parts of a node behind it. -/
def keyword (word : List Char) (parts : Surroundings M → M (NodeKind NodeId)) : Form M where
  name := String.ofList word
  accepts input _ := startsWithWord word input
  premise := none
  read s := do
    let start ← Reading.offset
    Reading.advance (byteCount word)
    let kind ← parts s
    Reading.allocFrom kind start

/-- `if (cond) yes else no`, where the last part may be left out. -/
def branch : Form M :=
  keyword ['i', 'f'] fun s => Reading.within .branch do
    let cond ← s.condition
    let yes ← s.expression
    if ← s.eatWord ['e', 'l', 's', 'e'] then
      let no ← s.expression
      return .branch cond yes no
    else return .branch cond yes NodeId.absent

/-- `while (cond) body` -/
def whileLoop : Form M :=
  keyword ['w', 'h', 'i', 'l', 'e'] fun s => Reading.within .whileLoop do
    let cond ← s.condition
    let body ← s.expression
    return .whileLoop cond body

/-- A part of the head of a `for` loop, absent if the part ends at once. -/
def headPart (s : Surroundings M) (close : Char) : M NodeId := do
  let _ ← s.skip
  if (← Reading.peek?) = some close then return NodeId.absent else s.expression

/-- `for (init; cond; step) body`, where each part of the head may be empty. -/
def forLoop : Form M :=
  keyword ['f', 'o', 'r'] fun s => Reading.within .forLoop do
    let _ ← s.skip
    let opener ← s.expect '('
    let head := s.inside .group
    let init ← headPart head ';'
    let _ ← head.expect ';'
    let cond ← headPart head ';'
    let _ ← head.expect ';'
    let step ← headPart head ')'
    head.expectClose opener '(' ')'
    let body ← s.expression
    return .forLoop init cond step body

/-- `end` -/
def last : Form M := keyword ['e', 'n', 'd'] fun _ => return .last

/-- A colon that is a whole argument. -/
def everything : Form M where
  name := "select-all"
  accepts input flags :=
    flags.inArguments &&
      match input with
      | ':' :: after =>
        match (after.dropWhile isBlank).head? with
        | some c => c == ',' || c == ')'
        | none => false
      | _ => false
  premise := none
  read _ := do
    let start ← Reading.offset
    Reading.next
    Reading.allocFrom .everything start

/-! ### Literals -/

def digitRun (cs : List Char) : Nat := (cs.takeWhile Char.isDigit).length

/-- The length of a fraction: a point with digits behind it. -/
def fractionLength : List Char → Nat
  | '.' :: cs => if digitRun cs = 0 then 0 else digitRun cs + 1
  | _ => 0

/-- The length of an exponent: its letter, a sign if there is one, and digits. -/
def exponentLength : List Char → Nat
  | [] => 0
  | c :: cs =>
    let sign := if cs.head? = some '+' || cs.head? = some '-' then 1 else 0
    let digits := digitRun (cs.drop sign)
    if (c == 'e' || c == 'E') && digits != 0 then 1 + sign + digits else 0

/-- The length of the number at the start of a text. -/
def numberLength (cs : List Char) : Nat :=
  let whole := digitRun cs
  let fraction := fractionLength (cs.drop whole)
  whole + fraction + exponentLength (cs.drop (whole + fraction))

/-- A number, imaginary if a lone `i` follows. It offers multiplication to what stands behind it. -/
def number : Form M where
  name := "number"
  accepts input _ :=
    match input with
    | '.' :: c :: _ => c.isDigit
    | c :: _ => c.isDigit
    | [] => false
  premise := some ['*']
  read _ := do
    let start ← Reading.cursor
    let length := numberLength start.rest
    let value := Decimal.toDouble (start.rest.take length)
    Reading.advance length
    if startsWithWord ['i'] (← Reading.cursor).rest then
      Reading.next
      Reading.allocFrom (.imaginary value) start.offset
    else Reading.allocFrom (.real value) start.offset

/-- What a backslash and the character behind it stand for. -/
def unescape : Char → List Char
  | 'n' => ['\n']
  | 't' => ['\t']
  | '"' => ['"']
  | '\\' => ['\\']
  | c => ['\\', c]

/-- The text up to the closing quote, and what stands behind that. -/
def textBody? : List Char → Option (List Char × List Char)
  | [] => none
  | '"' :: rest => some ([], rest)
  | ['\\'] => none
  | '\\' :: c :: rest => (textBody? rest).map fun (body, after) => (unescape c ++ body, after)
  | c :: rest => (textBody? rest).map fun (body, after) => (c :: body, after)

def text : Form M where
  name := "string"
  accepts input _ := input.head? = some '"'
  premise := none
  read _ := do
    let start ← Reading.cursor
    match textBody? (start.rest.drop 1) with
    | some (body, after) =>
      Reading.advance (byteCount start.rest - byteCount after)
      Reading.allocFrom (.text (String.ofList body)) start.offset
    | none =>
      Reading.within .text
        (Reading.fail (.unterminated "string literal") (start.toEnd.spanFrom start.offset))

/-- A variable, constant or function. -/
def identifier : Form M where
  name := "identifier"
  accepts input _ := input.head?.any isWordStart && !reservedWords.any (startsWithWord · input)
  premise := none
  read _ := do
    let start ← Reading.cursor
    let (word, after) := start.takeWhile isWordChar
    Reading.moveTo after
    Reading.allocFrom (.name (String.ofList word)) start.offset

/-! ### Delimiters -/

/-- An expression in parentheses, which is no node of its own, or a list of none or several. -/
def group : Form M where
  name := "group"
  accepts input _ := input.head? = some '('
  premise := none
  read s := do
    let start ← Reading.cursor
    Reading.next
    match ← s.delimited .group start.peekSpan '(' ')' .group with
    | [only] => return only
    | items => Reading.allocFrom (.tuple items) start.offset

/-- Ends a row, unless it is empty. -/
def endRow (row : List NodeId) (rows : List (List NodeId)) : List (List NodeId) :=
  if row.isEmpty then rows else row.reverse :: rows

/-- The rows of a matrix up to the closing bracket; both lists are built from the back. -/
def matrixRows (s : Surroundings M) (opener : Span) :
    Nat → List NodeId → List (List NodeId) → M (List (List NodeId))
  | 0, _, _ => Reading.fail .stalled opener
  | fuel + 1, row, rows => do
    let _ ← s.skip
    match ← Reading.peek? with
    | none => Reading.fail (.unclosed '[' ']') opener
    | some ']' => do
      Reading.next
      return (endRow row rows).reverse
    | some c =>
      if c = ';' || c = '\n' then
        Reading.next
        matrixRows s opener fuel [] (endRow row rows)
      else if c = ',' then
        Reading.next
        matrixRows s opener fuel row rows
      else
        let cell ← s.expression
        matrixRows s opener fuel (cell :: row) rows

/-- Columns are separated by commas or blanks, rows by semicolons or newlines. -/
def matrix : Form M where
  name := "matrix"
  accepts input _ := input.head? = some '['
  premise := none
  read s := do
    let start ← Reading.cursor
    Reading.next
    let rows ← Reading.within .matrix do
      matrixRows (s.inside .matrix) start.peekSpan (← Surroundings.rounds) [] []
    Reading.allocFrom (.matrix rows) start.offset

/-- `|x|` -/
def abs : Form M where
  name := "abs"
  accepts input _ := input.head? = some '|' && input.tail.head? != some '|'
  premise := none
  read s := do
    let start ← Reading.cursor
    Reading.next
    let operand ← Reading.within .abs do
      let s := s.inside .abs
      let operand ← s.expression
      s.expectClose start.peekSpan '|' '|'
      return operand
    Reading.allocFrom (.unary .abs operand) start.offset

/-- The operator that a sign before an operand is. -/
def leadingOp? : Option Char → Option UnaryOp
  | some '-' => some .neg
  | some '+' => some .plus
  | some '!' => some .not
  | some '~' => some .not
  | _ => none

/-- A sign or negation. Its operand holds all that binds more tightly. -/
def leading : Form M where
  name := "prefix"
  accepts input _ := (leadingOp? input.head?).isSome
  premise := none
  read s := do
    let start ← Reading.cursor
    Reading.next
    let operand ← s.expressionIn s.mode (Precedence.leading + 1)
    Reading.allocFrom (.unary ((leadingOp? start.peek?).getD .not) operand) start.offset

/-- Statements in braces. -/
def block : Form M where
  name := "block"
  accepts input _ := input.head? = some '\x7b'
  premise := none
  read s := do
    let start ← Reading.cursor
    Reading.next
    let statements ← Reading.within .block do
      let s := s.inside .block
      let statements ← s.statements (some '\x7d')
      s.expectClose start.peekSpan '\x7b' '\x7d'
      return statements
    Reading.allocFrom (.block (statements.map fun t => (t.root, t.muted))) start.offset

end Form

end MatrixScript
