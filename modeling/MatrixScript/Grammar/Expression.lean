import MatrixScript.Grammar.Sequence
import MatrixScript.Text.Ranges
import MatrixScript.Text.Alphabetic

/-!
# Expressions

An expression is an operand followed by operators. An operator is taken as long as it binds tightly
enough; the right operand of a joining one is read with the least precedence that its own operators
need. What ends the chain is the end of the text, a closing delimiter or separator, the word `else`,
or, between blanks in a matrix, whatever does not continue the column.

Every nested expression stands behind at least one character of the one around it, so the depth is
bounded by the length of the text.
-/

namespace MatrixScript

namespace Grammar

variable {M : Type → Type} [Monad M] [MonadStateOf Reader M] [MonadReading M]

/-- Whether the text cannot go on with an operator. `spaced` says that blanks stand before it. -/
def endsOperators (g : Grammar M) (flags : Flags) (spaced : Bool) (rest : List Char) : Bool :=
  match rest with
  | [] => true
  | c :: after =>
    [';', ',', ')', ']', '}', '\n'].contains c
      || (c == '|' && flags.inAbs && after.head? != some '|')
      || startsWithWord "else".toList rest
      || (spaced && flags.inMatrix
          && ((c == '-' || c == '+') && after.head?.any (!isBlank ·)
              || !(g.findOperator? rest none).any (·.operator.isJoining)))

/-- An operand: what the first form that accepts the text reads. -/
def operand (g : Grammar M) (s : Surroundings M) : M NodeId := do
  let _ ← s.skip
  let here ← Reading.cursor
  match g.findForm? here.rest s.mode.flags with
  | none => Reading.fail (.expectedExpression here.peek?) here.peekSpan
  | some form =>
    let id ← form.read s
    let kind ← Reading.kind? id
    let after ← Reading.offset
    MonadReading.ends fun r =>
      { r with
        premise := (form.premise.map (·, after)).or r.premise
        afterControlFlow := kind.any (·.isControlFlow) }
    return id

/-- The operator that is understood at the cursor: the one offered by an operand that ended at
`start`, if an operand comes next and nothing stands between. -/
def premiseAt (g : Grammar M) (r : Reader) (flags : Flags) (start : Nat) (spaced : Bool) :
    Option (List Char) :=
  match r.premise with
  | none => none
  | some (symbol, ended) =>
    if ended == start && !spaced && (g.findForm? r.cursor.rest flags).isSome then some symbol
    else none

/-- Builds the node of an operator whose symbol has just been passed. -/
def applyFixity (s : Surroundings M) (op : Operator M) (left : NodeId) (symbolSpan : Span) :
    M (NodeKind NodeId) :=
  match op.fixity with
  | .joining assoc build => do
    let right ← s.expressionIn s.mode (Operator.rightPrecedence op.precedence assoc)
    build left right
  | .trailing build => build s left symbolSpan

/-- The operators behind an operand. -/
def chain (g : Grammar M) (s : Surroundings M) (least : UInt8) : Nat → NodeId → M NodeId
  | 0, _ => do Reading.fail .stalled (← Reading.cursor).peekSpan
  | fuel + 1, left => do
    let before ← Reading.cursor
    let spaced ← s.skip
    let r ← get
    let here := r.cursor
    if g.endsOperators s.mode.flags spaced here.rest then
      Reading.moveTo before
      return left
    else
      match g.findOperator? here.rest (g.premiseAt r s.mode.flags before.offset spaced) with
      | none =>
        let found := (here.rest.takeWhile (!isBlank ·)).take 8
        Reading.fail (.noOperator found) here.peekSpan
      | some ⟨op, bytes⟩ =>
        if op.precedence < least then
          Reading.moveTo before
          return left
        else
          Reading.advance bytes
          let symbolSpan := (← Reading.cursor).spanFrom here.offset
          let leftSpan ← Reading.spanOf left
          let kind ← applyFixity s op left symbolSpan
          let span := leftSpan.merge ((← Reading.cursor).spanFrom here.offset)
          let node ← Reading.alloc kind span
          MonadReading.ends ({ · with afterControlFlow := false })
          g.chain s least fuel node

/-- An expression whose operators bind at least as tightly as `least`. Control flow is an expression
by itself, which no operator continues. -/
def expression (g : Grammar M) : Nat → Mode → UInt8 → M NodeId
  | 0, _, _ => do Reading.fail .stalled (← Reading.cursor).peekSpan
  | fuel + 1, mode, least => MonadReading.whole do
    let s : Surroundings M := ⟨mode, g.skip, g.expression fuel⟩
    let left ← g.operand s
    if (← get).afterControlFlow then return left
    else g.chain s least (← Surroundings.rounds) left

end Grammar

/-- What has been read: the forest and the statements at its top. -/
structure Program where
  forest : Forest
  statements : List Statement
deriving DecidableEq, Inhabited

namespace Grammar

/-- The surroundings at the top of a text. -/
def top {M : Type → Type} [Monad M] [MonadStateOf Reader M] [MonadReading M] (g : Grammar M)
    (text : List Char) : Surroundings M :=
  ⟨.statement, g.skip, g.expression (text.length + 1)⟩

/-- Reads a whole text. -/
def parse (g : Grammar) (text : List Char) : Except ParseError Program := do
  let (statements, r) ← (g.top text).statements none |>.run (Reader.ofText text)
  return ⟨r.forest, statements⟩

/-- Reads one expression at the start of a text, and gives where it ended. -/
def parseExpression (g : Grammar) (least : UInt8) (text : List Char) :
    Except ParseError (NodeId × Forest × Nat) := do
  let (root, r) ← (g.top text).expressionIn .statement least |>.run (Reader.ofText text)
  return (root, r.forest, r.cursor.offset)

end Grammar

end MatrixScript
