import MatrixScript.Double.Basic
import MatrixScript.Source.Span

/-!
# Operators and nodes

What an operator computes, apart from how it is written: symbols, precedence and associativity
belong to the grammar.

The kind of a node says what stands there and names its children. It is generic in what a child is:
in a forest children are numbers of nodes, in a tree they are trees, and a kind whose children are
forgotten is the label of a tree node. Copying, checking and unfolding are thereby instances of one
traversal.
-/

namespace MatrixScript

inductive BinaryOp where
  | add | sub | mul | div | leftDiv | pow
  | elemMul | elemDiv | elemPow
  | eq | notEq | lt | ltEq | gt | gtEq
  | and | or
deriving DecidableEq, Inhabited

namespace BinaryOp

/-- Every operator, in the order of their numbers in saved values. -/
def all : List BinaryOp :=
  [add, sub, mul, div, leftDiv, pow, elemMul, elemDiv, elemPow, eq, notEq, lt, ltEq, gt, gtEq,
    and, or]

/-- The symbol that messages show. -/
def symbol : BinaryOp → String
  | add => "+" | sub => "-" | mul => "*" | div => "/" | leftDiv => "\\" | pow => "^"
  | elemMul => ".*" | elemDiv => "./" | elemPow => ".^"
  | eq => "==" | notEq => "~=" | lt => "<" | ltEq => "<=" | gt => ">" | gtEq => ">="
  | and => "&&" | or => "||"

/-- The word for the operator in outlines of trees. -/
def word : BinaryOp → String
  | add => "Add" | sub => "Sub" | mul => "Mul" | div => "Div" | leftDiv => "LeftDiv" | pow => "Pow"
  | elemMul => "ElemMul" | elemDiv => "ElemDiv" | elemPow => "ElemPow"
  | eq => "Eq" | notEq => "NotEq" | lt => "Lt" | ltEq => "LtEq" | gt => "Gt" | gtEq => "GtEq"
  | and => "And" | or => "Or"

def ofWord? (s : String) : Option BinaryOp := all.find? (·.word == s)

def isComparison : BinaryOp → Bool
  | eq | notEq | lt | ltEq | gt | gtEq => true
  | _ => false

/-- Logical operators evaluate their right operand only when it decides. -/
def isLogical : BinaryOp → Bool
  | and | or => true
  | _ => false

end BinaryOp

inductive UnaryOp where
  | neg | plus | not
  | transpose | factorial
  | abs
deriving DecidableEq, Inhabited

namespace UnaryOp

/-- Every operator, in the order of their numbers in saved values. -/
def all : List UnaryOp := [neg, plus, not, transpose, factorial, abs]

def symbol : UnaryOp → String
  | neg => "-" | plus => "+" | not => "!" | transpose => "'" | factorial => "!" | abs => "|"

/-- The word for the operator in outlines of trees. -/
def word : UnaryOp → String
  | neg => "Neg" | plus => "Plus" | not => "Not" | transpose => "Transpose"
  | factorial => "Factorial" | abs => "Abs"

def ofWord? (s : String) : Option UnaryOp := all.find? (·.word == s)

/-- Whether the operator is written behind its operand. -/
def isTrailing : UnaryOp → Bool
  | transpose | factorial => true
  | _ => false

end UnaryOp

/-! ### Nodes -/

inductive NodeKind (α : Type) where
  | real (value : Double)
  | imaginary (value : Double)
  | text (value : String)
  | name (name : String)
  /-- The word `end`: an open bound, or the last index. -/
  | last
  /-- A lone colon: every index of a dimension. -/
  | everything
  | unary (op : UnaryOp) (operand : α)
  | binary (op : BinaryOp) (left right : α)
  | range (left right : α)
  /-- Plain assignment has no operator. -/
  | assign (target : α) (op : Option BinaryOp) (value : α)
  | call (callee : α) (args : List α)
  | matrix (rows : List (List α))
  /-- A parenthesised list of none or several, as it lists parameters. -/
  | tuple (items : List α)
  | lambda (params : List String) (body : α)
  /-- Statements, each with its mark for a muted one. -/
  | block (statements : List (α × Bool))
  | branch (cond yes no : α)
  | whileLoop (cond body : α)
  | forLoop (init cond step body : α)
deriving DecidableEq, Inhabited

namespace NodeKind

variable {α β : Type}

/-- The child slots in order, each with whether it may stay empty. -/
def slots : NodeKind α → List (α × Bool)
  | real _ | imaginary _ | text _ | name _ | last | everything => []
  | unary _ a => [(a, false)]
  | binary _ a b | range a b | assign a _ b => [(a, false), (b, false)]
  | call f args => (f, false) :: args.map (·, false)
  | matrix rows => rows.flatten.map (·, false)
  | tuple items => items.map (·, false)
  | lambda _ body => [(body, false)]
  | block statements => statements.map (·.1, false)
  | branch c y n => [(c, false), (y, false), (n, true)]
  | whileLoop c b => [(c, false), (b, false)]
  | forLoop i c s b => [(i, true), (c, true), (s, true), (b, false)]

def children (k : NodeKind α) : List α := k.slots.map (·.1)

/-- Replaces every child, from first to last. -/
def mapM {m : Type → Type} [Monad m] (f : α → m β) : NodeKind α → m (NodeKind β)
  | real x => pure (.real x)
  | imaginary x => pure (.imaginary x)
  | text s => pure (.text s)
  | name s => pure (.name s)
  | last => pure .last
  | everything => pure .everything
  | unary op a => do return .unary op (← f a)
  | binary op a b => do
    let a ← f a
    let b ← f b
    return .binary op a b
  | range a b => do
    let a ← f a
    let b ← f b
    return .range a b
  | assign a op b => do
    let a ← f a
    let b ← f b
    return .assign a op b
  | call g args => do
    let g ← f g
    let args ← args.mapM f
    return .call g args
  | matrix rows => do return .matrix (← rows.mapM (·.mapM f))
  | tuple items => do return .tuple (← items.mapM f)
  | lambda params body => do return .lambda params (← f body)
  | block statements => do
    return .block (← statements.mapM fun (a, muted) => do return (← f a, muted))
  | branch c y n => do
    let c ← f c
    let y ← f y
    let n ← f n
    return .branch c y n
  | whileLoop c b => do
    let c ← f c
    let b ← f b
    return .whileLoop c b
  | forLoop i c s b => do
    let i ← f i
    let c ← f c
    let s ← f s
    let b ← f b
    return .forLoop i c s b

def map (f : α → β) (k : NodeKind α) : NodeKind β := Id.run (k.mapM fun a => pure (f a))

/-- The kind without its children. -/
def label (k : NodeKind α) : NodeKind Unit := k.map fun _ => ()

/-- Control flow ends a statement without a separator. -/
def isControlFlow : NodeKind α → Bool
  | block .. | branch .. | whileLoop .. | forLoop .. => true
  | _ => false

/-- How messages call a node. -/
def describe : NodeKind α → String
  | real _ | imaginary _ => "number"
  | text _ => "string"
  | name _ => "identifier"
  | last => "`end`"
  | everything => "`:`"
  | unary .. => "unary expression"
  | binary .. => "binary expression"
  | range .. => "range"
  | assign .. => "assignment"
  | call .. => "call"
  | matrix _ => "matrix literal"
  | tuple _ => "parameter list"
  | lambda .. => "lambda"
  | block _ => "block"
  | branch .. => "`if`"
  | whileLoop .. => "`while`"
  | forLoop .. => "`for`"

end NodeKind

/-- The number of a node in its forest. -/
structure NodeId where
  index : UInt32
deriving DecidableEq, Inhabited

namespace NodeId

/-- What stands in a slot that is left empty. -/
def absent : NodeId := ⟨4294967295⟩

def isPresent (id : NodeId) : Bool := id != absent

def text (id : NodeId) : String :=
  if id.isPresent then "ExprId(" ++ toString id.index.toNat ++ ")" else "ExprId::INVALID"

end NodeId

structure Node where
  kind : NodeKind NodeId
  span : Span
deriving DecidableEq, Inhabited

/-- One statement of a sequence. A muted one is evaluated but reports no value. -/
structure Statement where
  root : NodeId
  muted : Bool
deriving DecidableEq, Inhabited

end MatrixScript
