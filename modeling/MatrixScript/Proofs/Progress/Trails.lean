import MatrixScript.Grammar.Standard
import MatrixScript.Proofs.Layout.Positions

/-!
# Reading with a record of the cursor

The reader keeps no record of where its cursor has been. Here texts are read in a monad that keeps
one, so that each step also records where it leaves the cursor. The end of an operand is recorded as
well: where a form has read one, and where an operator has taken up its operands into a node, which
is then what the next operator stands behind.

A step either only moves the cursor on or puts it to one place, and counts as a move to where it
leaves the cursor. All that looks for places, loops or reads parts is made of such steps: it is the
same procedure in this monad as in the reader's own.
-/

namespace MatrixScript

deriving instance DecidableEq for Cursor

/-- What is recorded while a text is read. -/
inductive Event where
  | moved (place : Cursor)
  /-- An operand ends where the cursor stands. -/
  | ended
  /-- An expression that starts at this place ends where the cursor stands. -/
  | read (start : Cursor)
  /-- A loop gives up silently because its rounds are used up. -/
  | cut
deriving DecidableEq

/-- What has been recorded, the latest first. -/
abbrev Trail := List Event

namespace Trail

/-- Where the cursor stands. -/
def position : Trail → Cursor
  | [] => default
  | .moved place :: _ => place
  | _ :: before => position before

/-- The places reached since the last operand ended, the end of that operand included. -/
def recent : Trail → List Cursor
  | [] => []
  | .moved place :: before => place :: recent before
  | .ended :: before => [position before]
  | _ :: before => recent before

/-- A record in which no loop gives up. -/
inductive Sound : Trail → Prop where
  | start (place : Cursor) : Sound [.moved place]
  /-- The cursor goes on in the text, or back to a place that it has reached since the last operand
  ended. -/
  | moved {trail : Trail} {place : Cursor} : Sound trail →
      (position trail).Reaches place ∨ place ∈ recent trail → Sound (.moved place :: trail)
  | ended {trail : Trail} : Sound trail → Sound (.ended :: trail)
  /-- An expression passes something, and ends in the text. -/
  | read {trail : Trail} {start : Cursor} : Sound trail → start.Reaches (position trail) →
      start.offset < (position trail).offset → Sound (.read start :: trail)

end Trail

/-- Reading with a record. What has been recorded is there also if reading fails. -/
abbrev Tracked := StateT Reader (ExceptT ParseError (StateM Trail))

namespace Tracked

def note (event : Event) : Tracked Unit := fun r trail => (.ok ((), r), event :: trail)

/-- A step is recorded by where it leaves the cursor, and an expression by where it starts. -/
instance : MonadReading Tracked where
  step f r trail :=
    match f r with
    | .ok (a, r₁) => (.ok (a, r₁), .moved r₁.cursor :: trail)
    | .error e => (.error e, trail)
  within construct t r trail := ((t r trail).1.mapError (·.within construct), (t r trail).2)
  whole t r trail :=
    match t r trail with
    | (.ok (a, r₁), trail₁) => (.ok (a, r₁), .read r.cursor :: trail₁)
    | (.error e, trail₁) => (.error e, trail₁)
  ends f := do modify f; note .ended
  giveUp := note .cut

/-- Reading without the record. -/
def forget {α : Type} (t : Tracked α) : Reading α := fun r => (t r []).1

end Tracked

/-! ### Grammars -/

def Surroundings.forget (s : Surroundings Tracked) : Surroundings :=
  ⟨s.mode, fun mode => (s.skipIn mode).forget, fun mode least => (s.expressionIn mode least).forget⟩

/-- A form that is read with a record. One that is not a standard form counts as one step. -/
def Form.tracked (form : Form) : Form Tracked where
  name := form.name
  accepts := form.accepts
  premise := form.premise
  read :=
    match Form.standard.find? (·.2.name == form.name) with
    | some (_, known) => known.read
    | none => fun s => MonadReading.step (form.read s.forget)

/-- The standard forms themselves read with a record. -/
theorem Form.standard_tracked :
    standard.map (fun (priority, form) => (priority, form.tracked)) = standard := rfl

/-- Of the trailing operators only the call reads on. -/
def Fixity.tracked (symbol : List Char) : Fixity → Fixity Tracked
  | .joining assoc build => .joining assoc fun left right => MonadReading.step (build left right)
  | .trailing build =>
    if symbol = ['('] then Operator.call.fixity
    else .trailing fun s left span => MonadReading.step (build s.forget left span)

def Operator.tracked (op : Operator) : Operator Tracked :=
  ⟨op.symbol, op.precedence, op.fixity.tracked op.symbol⟩

namespace Operator

theorem call_tracked : (call : Operator).tracked = call := rfl

@[simp] theorem isJoining_tracked (op : Operator) :
    op.tracked.isJoining = op.isJoining := by
  obtain ⟨symbol, precedence, fixity⟩ := op
  cases fixity with
  | joining assoc build => rfl
  | trailing build =>
      unfold isJoining tracked Fixity.tracked
      by_cases h : symbol = ['(']
      · simp [h, call]
      · simp [h]

end Operator

namespace Grammar

/-- What a grammar reads, read with a record. -/
def tracked (g : Grammar) : Grammar Tracked where
  operators := g.operators.map Operator.tracked
  forms := g.forms.map fun (priority, form) => (priority, form.tracked)
  transforms := g.transforms

/-- Reads a whole text, with a record. -/
def parseTracked (g : Grammar) (text : List Char) : Except ParseError Program × Trail :=
  let (result, trail) :=
    (g.tracked.top text).statements none (Reader.ofText text) [.moved (.ofText text)]
  (result.map fun (statements, r) => ⟨r.forest, statements⟩, trail)

/-! ### What is found, with or without a record -/

variable (g : Grammar)

theorem operator?_tracked (symbol : List Char) :
    g.tracked.operator? symbol = (g.operator? symbol).map Operator.tracked :=
  List.find?_map ..

theorem findOperator?_tracked (input : List Char) (premise : Option (List Char)) :
    g.tracked.findOperator? input premise
      = (g.findOperator? input premise).map fun found =>
          ⟨found.operator.tracked, found.bytes⟩ := by
  have hwritten : g.tracked.operators.find? (·.symbol.isPrefixOf input)
      = (g.operators.find? (·.symbol.isPrefixOf input)).map Operator.tracked := List.find?_map ..
  have hoffered : premise.bind g.tracked.operator?
      = (premise.bind g.operator?).map Operator.tracked := by
    rw [Option.map_bind]
    exact congrArg _ (funext g.operator?_tracked)
  unfold findOperator?
  rw [hwritten, hoffered]
  cases g.operators.find? (·.symbol.isPrefixOf input) with
  | some op => rfl
  | none => cases premise.bind g.operator? <;> rfl

theorem findForm?_tracked (input : List Char) (flags : Flags) :
    g.tracked.findForm? input flags = (g.findForm? input flags).map Form.tracked := by
  have hfound : g.tracked.forms.find? (·.2.accepts input flags)
      = (g.forms.find? (·.2.accepts input flags)).map fun (priority, form) =>
          (priority, form.tracked) := List.find?_map ..
  unfold findForm?
  rw [hfound]
  cases g.forms.find? (·.2.accepts input flags) <;> rfl

theorem elide_tracked (flags : Flags) (fuel : Nat) (elided : Bool) (c : Cursor) :
    g.tracked.elide flags fuel elided c = g.elide flags fuel elided c := by
  induction fuel generalizing elided c with
  | zero => rfl
  | succ fuel ih =>
      rw [elide, elide]
      simp only [ih]
      rfl

theorem skip_tracked :
    g.tracked.skip = fun mode => (MonadReading.step (g.skip mode) : Tracked Bool) := by
  funext mode
  unfold skip
  simp only [elide_tracked]
  rfl

theorem endsOperators_tracked (flags : Flags) (spaced : Bool) (rest : List Char) :
    g.tracked.endsOperators flags spaced rest = g.endsOperators flags spaced rest := by
  unfold endsOperators
  rw [findOperator?_tracked]
  cases rest with
  | nil => rfl
  | cons c after =>
    cases g.findOperator? (c :: after) none <;> simp

theorem premiseAt_tracked (r : Reader) (flags : Flags) (start : Nat) (spaced : Bool) :
    g.tracked.premiseAt r flags start spaced = g.premiseAt r flags start spaced := by
  unfold premiseAt
  rw [findForm?_tracked, Option.isSome_map]

end Grammar

end MatrixScript
