import MatrixScript.Grammar.Basic
import MatrixScript.Grammar.Expression
import MatrixScript.Grammar.Forms
import MatrixScript.Text.Hidden

/-!
# The standard grammar

Without meaning are blanks, newlines where they do not end anything, comments, and the ends of lines
joined by a backslash. Keywords are tried before names, and the lone colon before whatever else
could read a colon.
-/

namespace MatrixScript

namespace Transform

def isInline (c : Char) : Bool := c == ' ' || c == '\t' || c == '\r'

/-- Spaces, tabs and carriage returns. -/
def whitespace : Transform := fun input _ => .elided (input.takeWhile isInline).length

/-- A newline that does not end a statement or a matrix row. -/
def newline : Transform := fun _ flags => if flags.newlineSignificant then .declined else .elided 1

/-- What stands before the first end mark of a block comment. -/
def commentBody? : List Char → Option (List Char)
  | [] => none
  | '*' :: '/' :: _ => some []
  | c :: cs => (commentBody? cs).map (c :: ·)

/-- A comment to the end of the line, which stays, or between its marks. -/
def comment : Transform := fun input _ =>
  match input with
  | '/' :: '/' :: _ => .elided (byteCount (input.takeWhile (· ≠ '\n')))
  | '/' :: '*' :: rest =>
    match commentBody? rest with
    | some body => .elided (byteCount body + 4)
    | none => .unterminated "block comment"
  | _ => .declined

/-- A backslash at the end of a line joins it with the next. -/
def continuation : Transform := fun input _ =>
  let blanks := (input.drop 1).takeWhile isInline
  if ((input.drop 1).drop blanks.length).head? = some '\n' then .elided (blanks.length + 2)
  else .declined

end Transform

/-! ### Operators and forms -/

namespace Operator

/-- The standard operators, in the order of their registration. -/
def standard : List Operator :=
  [ assignment "=".toList none,
    assignment "+=".toList (some .add),
    assignment "-=".toList (some .sub),
    assignment "*=".toList (some .mul),
    assignment "/=".toList (some .div),
    assignment "^=".toList (some .pow),
    lambda,
    binary "||".toList Precedence.or .left .or,
    binary "&&".toList Precedence.and .left .and,
    binary "==".toList Precedence.comparison .left .eq,
    binary "~=".toList Precedence.comparison .left .notEq,
    binary "!=".toList Precedence.comparison .left .notEq,
    binary "<".toList Precedence.comparison .left .lt,
    binary "<=".toList Precedence.comparison .left .ltEq,
    binary ">".toList Precedence.comparison .left .gt,
    binary ">=".toList Precedence.comparison .left .gtEq,
    binary "+".toList Precedence.additive .left .add,
    binary "-".toList Precedence.additive .left .sub,
    range,
    binary "*".toList Precedence.multiplicative .left .mul,
    binary "/".toList Precedence.multiplicative .left .div,
    binary "\\".toList Precedence.multiplicative .left .leftDiv,
    binary ".*".toList Precedence.multiplicative .left .elemMul,
    binary "./".toList Precedence.multiplicative .left .elemDiv,
    binary "^".toList Precedence.power .right .pow,
    binary ".^".toList Precedence.power .right .elemPow,
    trailingUnary "'".toList Precedence.trailing .transpose,
    trailingUnary "!".toList Precedence.trailing .factorial,
    call ]

end Operator

namespace Form

/-- The standard forms with their priorities. -/
def standard {M : Type → Type} [Monad M] [MonadReading M] : List (Nat × Form M) :=
  [ (1000, branch), (990, whileLoop), (980, forLoop), (900, last), (850, everything),
    (800, number), (700, text), (600, identifier), (500, group), (400, matrix), (300, abs),
    (200, leading), (100, block) ]

end Form

namespace Transform

def standard : List (Char × Transform) :=
  [ (' ', whitespace), ('\t', whitespace), ('\r', whitespace), ('\n', newline), ('/', comment),
    ('\\', continuation) ]

end Transform

namespace Grammar

def standard : Grammar where
  operators := Operator.standard.foldl (fun ops op => insertRanked (byteCount ·.symbol) op ops) []
  forms := Form.standard
  transforms := Transform.standard

/-- The listing of all keys. -/
def text (g : Grammar) : String :=
  let triggers := (g.transforms.map (·.1)).mergeSort (·.toNat ≤ ·.toNat)
  "Grammar \x7b operators: " ++ listing (g.operators.map (quoted <| String.ofList ·.symbol))
    ++ ", forms: " ++ listing (g.forms.map (quoted ·.2.name))
    ++ ", transforms: " ++ listing (triggers.map quotedChar) ++ " \x7d"

end Grammar

namespace Operator

/-- The listing of one operator. -/
def text (op : Operator) : String :=
  let fixity :=
    match op.fixity with
    | .joining .left _ => "infix-left"
    | .joining .right _ => "infix-right"
    | .trailing _ => "postfix"
  "OperatorDef(" ++ quoted (String.ofList op.symbol) ++ ", " ++ toString op.precedence.toNat
    ++ ", " ++ fixity ++ ")"

end Operator

end MatrixScript
