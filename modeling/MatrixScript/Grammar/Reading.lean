import MatrixScript.Grammar.Error
import MatrixScript.Source.Cursor
import MatrixScript.Syntax.Forest

/-!
# Reading

What changes while a text is read: the cursor, the forest of nodes found so far, the operator that
the last operand offers to whatever stands right behind it, and whether that operand was control
flow. A step of reading changes these or fails.

Texts can also be read in other monads, in which more is kept than a reader needs. What reads a
text is therefore made from steps of reading and from a few operations that mark where a part begins
or ends.

Every open delimiter puts the reader into a mode. The mode says whether a newline ends a statement,
whether blanks separate columns, and what a lone `:` or `|` means.
-/

namespace MatrixScript

/-! ### Modes -/

/-- What transforms and forms may ask about the mode. -/
structure Flags where
  newlineSignificant : Bool
  inArguments : Bool
  inMatrix : Bool
  inAbs : Bool
deriving DecidableEq, Inhabited

inductive Mode where
  | statement | group | arguments | matrix | block | abs
deriving DecidableEq, Inhabited

def Mode.flags : Mode → Flags
  | .statement | .block => ⟨true, false, false, false⟩
  | .group => ⟨false, false, false, false⟩
  | .arguments => ⟨false, true, false, false⟩
  | .matrix => ⟨true, false, true, false⟩
  | .abs => ⟨false, false, false, true⟩

/-! ### Steps of reading -/

structure Reader where
  cursor : Cursor
  forest : Forest
  /-- A symbol, and the offset at which the operand that offers it ended. -/
  premise : Option (List Char × Nat)
  afterControlFlow : Bool

abbrev Reading := StateT Reader (Except ParseError)

def Reader.ofText (text : List Char) : Reader := ⟨Cursor.ofText text, Forest.empty, none, false⟩

/-- Monads in which texts are read. -/
class MonadReading (M : Type → Type) where
  /-- A step of reading. -/
  step {α : Type} : Reading α → M α
  /-- Names the construct that a failing part belongs to. -/
  within {α : Type} : Construct → M α → M α
  /-- An expression as a whole. -/
  whole {α : Type} : M α → M α
  /-- What changes where an operand ends. -/
  ends : (Reader → Reader) → M Unit
  /-- A loop ends because its rounds are used up. -/
  giveUp : M Unit

namespace Reading

variable {M : Type → Type} [MonadReading M]

@[default_instance]
instance : MonadReading Reading where
  step f := f
  within construct f r := (f r).mapError (·.within construct)
  whole f := f
  ends := modify
  giveUp := return ()

def fail {α : Type} (fault : ParseFault) (span : Span) : M α :=
  MonadReading.step (throw ⟨fault, span, none⟩)

/-- Names the construct that a failing part belongs to. -/
def within {α : Type} (construct : Construct) (part : M α) : M α :=
  MonadReading.within construct part

def cursor : M Cursor := MonadReading.step (return (← get).cursor)

def moveTo (c : Cursor) : M Unit := MonadReading.step (modify ({ · with cursor := c }))

def offset : M Nat := MonadReading.step (return (← cursor).offset)

def peek? : M (Option Char) := MonadReading.step (return (← cursor).peek?)

/-- Passes one character. -/
def next : M Unit := MonadReading.step do moveTo (← cursor).next

def advance (bytes : Nat) : M Unit := MonadReading.step do moveTo ((← cursor).advance bytes)

/-- Passes `c` if it comes next. -/
def eat (c : Char) : M Bool := MonadReading.step do
  match (← cursor).eat? c with
  | some after => moveTo after; return true
  | none => return false

/-- Stores a node. -/
def alloc (kind : NodeKind NodeId) (span : Span) : M NodeId := MonadReading.step do
  let r ← get
  let (id, forest) := r.forest.push ⟨kind, span⟩
  set { r with forest }
  return id

/-- Stores a node that reaches from `start` to the cursor. -/
def allocFrom (kind : NodeKind NodeId) (start : Nat) : M NodeId := MonadReading.step do
  alloc kind ((← cursor).spanFrom start)

def kind? (id : NodeId) : M (Option (NodeKind NodeId)) :=
  MonadReading.step (return (← get).forest.kind? id)

def spanOf (id : NodeId) : M Span :=
  MonadReading.step (return ((← get).forest.get? id).elim Span.none (·.span))

end Reading

end MatrixScript
