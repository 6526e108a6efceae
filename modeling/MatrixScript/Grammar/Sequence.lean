import MatrixScript.Grammar.Basic

/-!
# Sequences

The steps that forms share: expecting a character, reading a list between delimiters, the condition
of a control-flow form, and a sequence of statements. Each loop passes at least one character per
round, so the number of characters left bounds the rounds.
-/

namespace MatrixScript

namespace Surroundings

variable {M : Type → Type} [Monad M] [MonadReading M]

def skip (s : Surroundings M) : M Bool := s.skipIn s.mode

/-- Any expression. -/
def expression (s : Surroundings M) : M NodeId := s.expressionIn s.mode 0

/-- The same reader inside a delimiter. -/
def inside (s : Surroundings M) (mode : Mode) : Surroundings M := { s with mode }

/-- One round more than there are characters left. -/
def rounds : M Nat := MonadReading.step (return (← Reading.cursor).rest.length + 1)

/-- Passes a character that has to come next, and gives its span. -/
def expect (s : Surroundings M) (c : Char) : M Span := do
  let _ ← s.skip
  let here ← Reading.cursor
  if ← Reading.eat c then return here.peekSpan
  else Reading.fail (.expectedChar c here.peek?) here.peekSpan

/-- Passes the delimiter that closes the one at `opener`. -/
def expectClose (s : Surroundings M) (opener : Span) (opening closing : Char) : M Unit := do
  let _ ← s.skip
  let here ← Reading.cursor
  if ← Reading.eat closing then return ()
  else if here.atEnd then Reading.fail (.unclosed opening closing) opener
  else Reading.fail (.expectedChar closing here.peek?) here.peekSpan

/-- Expressions separated by commas, up to the closing delimiter. -/
def items (s : Surroundings M) (opener : Span) (opening closing : Char) :
    Nat → List NodeId → M (List NodeId)
  | 0, _ => Reading.fail .stalled opener
  | fuel + 1, found => do
    let item ← s.expression
    let _ ← s.skip
    if ← Reading.eat ',' then s.items opener opening closing fuel (item :: found)
    else
      s.expectClose opener opening closing
      return (item :: found).reverse

/-- A list behind its opening delimiter. -/
def delimited (s : Surroundings M) (mode : Mode) (opener : Span) (opening closing : Char)
    (construct : Construct) : M (List NodeId) :=
  Reading.within construct do
    let s := s.inside mode
    let _ ← s.skip
    if ← Reading.eat closing then return []
    else s.items opener opening closing (← rounds) []

/-- The condition in parentheses of a control-flow form. -/
def condition (s : Surroundings M) : M NodeId := do
  let opener ← s.expect '('
  let s := s.inside .group
  let cond ← s.expression
  s.expectClose opener '(' ')'
  return cond

/-- Passes newlines, and what means nothing behind each. -/
def skipLines (s : Surroundings M) : Nat → M Unit
  | 0 => MonadReading.giveUp
  | fuel + 1 => do
    if ← Reading.eat '\n' then
      let _ ← s.skip
      s.skipLines fuel

/-- Whether a statement has ended at the cursor, and whether it is muted. Control flow ends without
a separator. -/
def statementEnd (close : Option Char) : Reading Bool := do
  let c ← Reading.cursor
  match c.peek? with
  | none => return false
  | some ';' => Reading.next; return true
  | some '\n' => Reading.next; return false
  | some x =>
    if some x == close || (← get).afterControlFlow then return false
    else Reading.within .statement (Reading.fail (.unexpected (some x)) c.peekSpan)

/-- Statements up to `close`, which is left, or the end of the text. -/
def statementList (s : Surroundings M) (close : Option Char) :
    Nat → List Statement → M (List Statement)
  | 0, _ => do Reading.fail .stalled (← Reading.cursor).peekSpan
  | fuel + 1, found => do
    let _ ← s.skip
    match ← Reading.peek? with
    | none => return found.reverse
    | some c =>
      if some c == close then return found.reverse
      else if c = ';' || c = '\n' then
        Reading.next
        s.statementList close fuel found
      else
        let root ← Reading.within .statement s.expression
        let _ ← s.skip
        let muted ← MonadReading.step (statementEnd close)
        s.statementList close fuel (⟨root, muted⟩ :: found)

def statements (s : Surroundings M) (close : Option Char) : M (List Statement) := do
  s.statementList close (← rounds) []

end Surroundings

end MatrixScript
