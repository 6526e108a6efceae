import MatrixScript.Grammar.Reading

/-!
# Grammars

A grammar has three tables, each of which can be extended.

* Operators are found by their symbol, the longest one that the text starts with. Where none does,
  the operand just read may have offered one that is understood without being written.
* Forms read operands. They are asked in the order of their priority, and the first that accepts the
  text reads it.
* Transforms pass over text that means nothing, such as blanks and comments. They are found by the
  first character of that text.

A key can be registered once. The longest symbols stand first in the table of operators, and the
highest priorities in that of forms; among equals the earlier registration stands first.
-/

namespace MatrixScript

inductive Assoc where
  | left | right
deriving DecidableEq

/-- What a form or an operator may use of the reader around it. -/
structure Surroundings (M : Type → Type := Reading) where
  mode : Mode
  /-- Passes over text that means nothing in a mode, and says whether there was any. -/
  skipIn : Mode → M Bool
  /-- Reads an expression whose operators bind at least as tightly as a precedence. -/
  expressionIn : Mode → UInt8 → M NodeId

/-- A joining operator stands between two operands. A trailing one stands behind its operand, and
may read on, as a call reads its arguments. -/
inductive Fixity (M : Type → Type := Reading) where
  | joining (assoc : Assoc) (build : NodeId → NodeId → M (NodeKind NodeId))
  | trailing (build : Surroundings M → NodeId → Span → M (NodeKind NodeId))

structure Operator (M : Type → Type := Reading) where
  symbol : List Char
  /-- Higher binds more tightly. -/
  precedence : UInt8
  fixity : Fixity M

namespace Operator

def isJoining {M : Type → Type} (op : Operator M) : Bool :=
  match op.fixity with
  | .joining .. => true
  | .trailing _ => false

/-- The least precedence in the right operand of a joining operator. -/
def rightPrecedence (precedence : UInt8) : Assoc → UInt8
  | .left => if precedence = 255 then 255 else precedence + 1
  | .right => precedence

end Operator

structure Form (M : Type → Type := Reading) where
  name : String
  /-- Whether the text starts with this form. -/
  accepts : List Char → Flags → Bool
  read : Surroundings M → M NodeId
  /-- The operator understood between this operand and one right behind it. -/
  premise : Option (List Char)

/-- What a transform does with the text. -/
inductive Elision where
  | declined
  | elided (bytes : Nat)
  | unterminated (what : String)
deriving DecidableEq

abbrev Transform := List Char → Flags → Elision

structure Grammar (M : Type → Type := Reading) where
  operators : List (Operator M)
  forms : List (Nat × Form M)
  transforms : List (Char × Transform)

/-- An operator found in a text, and the bytes of its symbol there: none if it is understood. -/
structure OperatorMatch (M : Type → Type := Reading) where
  operator : Operator M
  bytes : Nat

namespace Grammar

variable {M : Type → Type}

def empty : Grammar := ⟨[], [], []⟩

/-- The operator with exactly this symbol. -/
def operator? (g : Grammar M) (symbol : List Char) : Option (Operator M) :=
  g.operators.find? (·.symbol == symbol)

def transform? (g : Grammar M) (trigger : Char) : Option Transform :=
  (g.transforms.find? (·.1 == trigger)).map (·.2)

/-- The operator whose symbol the text starts with, or else the one that is offered. -/
def findOperator? (g : Grammar M) (input : List Char) (premise : Option (List Char)) :
    Option (OperatorMatch M) :=
  match g.operators.find? (·.symbol.isPrefixOf input) with
  | some op => some ⟨op, byteCount op.symbol⟩
  | none => (premise.bind g.operator?).map (⟨·, 0⟩)

/-- The first form that accepts the text. -/
def findForm? (g : Grammar M) (input : List Char) (flags : Flags) : Option (Form M) :=
  (g.forms.find? (·.2.accepts input flags)).map (·.2)

/-! ### Registration -/

/-- Inserts behind all entries that rank at least as high. -/
def insertRanked {α : Type} (rank : α → Nat) (x : α) (xs : List α) : List α :=
  xs.takeWhile (rank x ≤ rank ·) ++ x :: xs.dropWhile (rank x ≤ rank ·)

/-- Works on the tables of a grammar. What it has done to them stays if it fails. -/
abbrev Registering := ExceptT GrammarError (StateM Grammar)

def addOperator (op : Operator) : Registering Unit := do
  let g ← get
  if op.symbol.isEmpty then throw .emptySymbol
  else if (g.operator? op.symbol).isSome then
    throw (.duplicate "operator" (String.ofList op.symbol))
  else set { g with operators := insertRanked (byteCount ·.symbol) op g.operators }

def addForm (priority : Nat) (form : Form) : Registering Unit := do
  let g ← get
  if g.forms.any (·.2.name == form.name) then throw (.duplicate "expression form" form.name)
  else set { g with forms := insertRanked (·.1) (priority, form) g.forms }

def addTransform (trigger : Char) (transform : Transform) : Registering Unit := do
  let g ← get
  if (g.transform? trigger).isSome then throw (.duplicate "transform" trigger.toString)
  else set { g with transforms := g.transforms ++ [(trigger, transform)] }

/-- The grammar that registering leaves behind, unless it fails. -/
def registered (g : Grammar) (x : Registering Unit) : Except GrammarError Grammar :=
  ((x *> get).run.run g).1

def registerOperator (g : Grammar) (op : Operator) : Except GrammarError Grammar :=
  g.registered (addOperator op)

def registerForm (g : Grammar) (priority : Nat) (form : Form) : Except GrammarError Grammar :=
  g.registered (addForm priority form)

def registerTransform (g : Grammar) (trigger : Char) (transform : Transform) :
    Except GrammarError Grammar :=
  g.registered (addTransform trigger transform)

/-! ### Passing over text without meaning -/

/-- Applies transforms until none applies. The fuel bounds the characters left. -/
def elide (g : Grammar M) (flags : Flags) :
    Nat → Bool → Cursor → Except ParseError (Bool × Cursor)
  | 0, elided, c => .ok (elided, c)
  | fuel + 1, elided, c =>
    match c.peek?.bind g.transform? with
    | none => .ok (elided, c)
    | some transform =>
      match transform c.rest flags with
      | .declined | .elided 0 => .ok (elided, c)
      | .elided (n + 1) => g.elide flags fuel true (c.advance (n + 1))
      | .unterminated what => .error ⟨.unterminated what, c.toEnd.spanFrom c.offset, none⟩

def skip [MonadReading M] (g : Grammar M) (mode : Mode) : M Bool := MonadReading.step do
  let c ← Reading.cursor
  let (elided, after) ← g.elide mode.flags c.rest.length false c
  Reading.moveTo after
  return elided

end Grammar

end MatrixScript
