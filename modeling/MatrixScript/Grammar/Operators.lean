import MatrixScript.Grammar.Sequence

/-!
# Making operators

How the operators of the language build their nodes, and the levels at which they bind. An
assignment checks its target and a lambda its parameters as soon as the node is built.
-/

namespace MatrixScript

namespace Precedence

def assign : UInt8 := 1
def lambda : UInt8 := 2
def or : UInt8 := 3
def and : UInt8 := 4
def comparison : UInt8 := 5
def additive : UInt8 := 6
def range : UInt8 := 7
def multiplicative : UInt8 := 8

/-- The level of the operators written before their operand. -/
def leading : UInt8 := 9

def power : UInt8 := 10
def trailing : UInt8 := 11
def call : UInt8 := 12

end Precedence

namespace Operator

def binary (symbol : List Char) (precedence : UInt8) (assoc : Assoc) (op : BinaryOp) : Operator :=
  ⟨symbol, precedence, .joining assoc fun left right => return .binary op left right⟩

def trailingUnary (symbol : List Char) (precedence : UInt8) (op : UnaryOp) : Operator :=
  ⟨symbol, precedence, .trailing fun _ operand _ => return .unary op operand⟩

/-- Whether a node is a name. -/
def isName (f : Forest) (id : NodeId) : Bool :=
  match f.kind? id with
  | some (.name _) => true
  | _ => false

/-- What can be assigned to: a name, an index expression on a name, or, unless the assignment is
compound, a matrix literal that is one row of names. -/
def isTarget (f : Forest) (compound : Bool) : NodeKind NodeId → Bool
  | .name _ => true
  | .call callee _ => isName f callee
  | .matrix [row] => !compound && !row.isEmpty && row.all (isName f)
  | _ => false

/-- Plain assignment, or one that applies an operator to the old value. -/
def assignment (symbol : List Char) (op : Option BinaryOp) : Operator :=
  ⟨symbol, Precedence.assign, .joining .right fun target value => do
    let f := (← get).forest
    match f.get? target with
    | none => Reading.fail (.invalidTarget "") Span.none
    | some node =>
      if isTarget f op.isSome node.kind then return .assign target op value
      else
        Reading.within .assignment
          (Reading.fail (.invalidTarget node.kind.describe) node.span)⟩

/-- The name that a node is. -/
def nameOf? (f : Forest) (id : NodeId) : Option String :=
  match f.kind? id with
  | some (.name name) => some name
  | _ => none

/-- The parameters that the head of a lambda lists. -/
def parameters? (f : Forest) : NodeKind NodeId → Option (List String)
  | .name name => some [name]
  | .tuple items => items.mapM (nameOf? f)
  | _ => none

def lambda : Operator :=
  ⟨['=', '>'], Precedence.lambda, .joining .right fun head body => do
    let f := (← get).forest
    match (f.kind? head).bind (parameters? f) with
    | some params => return .lambda params body
    | none =>
      let span ← Reading.spanOf head
      Reading.within .lambda (Reading.fail .invalidParameters span)⟩

def range : Operator :=
  ⟨[':'], Precedence.range, .joining .right fun left right => return .range left right⟩

/-- A call or an index expression. -/
def call {M : Type → Type} [Monad M] [MonadReading M] : Operator M :=
  ⟨['('], Precedence.call, .trailing fun s callee opener => do
    let args ← s.delimited .arguments opener '(' ')' .arguments
    return .call callee args⟩

end Operator

end MatrixScript
