import MatrixScript.Evaluation.Assigning

/-!
# Evaluation

The value of a node from the values of its children. What the evaluation of a child is stays open
until `evaluate` closes the recursion: each level of nodes, and each round of a loop, takes from the
fuel.
-/

namespace MatrixScript

namespace Setting

variable (s : Setting) (eval : Evaluator)

def isTrue (id : NodeId) : Evaluation Bool := return (← eval s id).isTrue

/-- Operands from left to right. A logical operator evaluates the right one only if the left one
leaves the result open. -/
def binary (op : BinaryOp) (left right : NodeId) : Evaluation Value := do
  let v ← eval s left
  match op with
  | .and => if v.isTrue then return .ofBool (← s.isTrue eval right) else return .ofBool false
  | .or => if v.isTrue then return .ofBool true else return .ofBool (← s.isTrue eval right)
  | _ => Evaluation.ofResult (Value.binary op v (← eval s right))

/-- A range; with `end` on its right it is open. -/
def range (left right : NodeId) : Evaluation Value := do
  let start ← eval s left
  match ← s.kind right with
  | .last => Evaluation.ofResult (Value.makeRange start none)
  | _ => Evaluation.ofResult (Value.makeRange start (some (← eval s right)))

def joinRow (ids : List NodeId) : Evaluation Matrix :=
  ids.foldlM
    (fun joined id => do
      let v ← eval s id
      let m ← Evaluation.orFail v.matrix? (.unsupported "[]" v.kind none)
      Evaluation.ofResult (joined.beside m))
    Matrix.empty

/-- The elements of a matrix literal, joined into rows, and these into the result. -/
def matrixLiteral (rows : List (List NodeId)) : Evaluation Value := do
  let m ← rows.foldlM
    (fun joined ids => do
      let row ← s.joinRow eval ids
      Evaluation.ofResult (joined.above row))
    Matrix.empty
  return .ofMatrix m

/-- The value of the last statement, and nothing if there is none. -/
def block (statements : List (NodeId × Bool)) : Evaluation Value :=
  statements.foldlM
    (fun _ (id, _) => do
      s.check
      eval s id)
    Value.emptyMatrix

def branch (cond yes no : NodeId) : Evaluation Value := do
  if ← s.isTrue eval cond then eval s yes
  else if no.isPresent then eval s no
  else return Value.emptyMatrix

/-- Goes round as long as the condition holds. The value is that of the last round. -/
def loop (cond : Evaluation Bool) (round : Evaluation Value) : Nat → Value → Evaluation Value
  | 0, _ => throw .outOfFuel
  | fuel + 1, last => do
    s.check
    if ← cond then
      let v ← round
      loop cond round fuel v
    else return last

def whileLoop (fuel : Nat) (cond body : NodeId) : Evaluation Value :=
  s.loop (s.isTrue eval cond) (eval s body) fuel Value.emptyMatrix

/-- Evaluates what may be left out. -/
def effect (id : NodeId) : Evaluation Unit := do
  if id.isPresent then
    let _ ← eval s id

/-- A condition that is left out holds. -/
def forLoop (fuel : Nat) (init cond step body : NodeId) : Evaluation Value := do
  s.effect eval init
  let holds : Evaluation Bool := if cond.isPresent then s.isTrue eval cond else return true
  let round : Evaluation Value := do
    let v ← eval s body
    s.effect eval step
    return v
  s.loop holds round fuel Value.emptyMatrix

def value (fuel : Nat) : NodeKind NodeId → Evaluation Value
  | .real x => return .real x
  | .imaginary x => return .scalar ⟨Double.zero, x⟩
  | .text t => return .text t
  | .name name => s.lookup name
  | .last => Evaluation.lastIndex
  | .everything =>
    Evaluation.fail (.argumentValue "`:` is only valid as a whole index argument")
  | .unary op a => do Evaluation.ofResult (Value.unary op (← eval s a))
  | .binary op a b => s.binary eval op a b
  | .range a b => s.range eval a b
  | .assign target op v => s.assign eval target op v
  | .call callee args => s.call eval callee args
  | .matrix rows => s.matrixLiteral eval rows
  | .tuple _ =>
    Evaluation.fail (.argumentValue "a parenthesised list is only valid as lambda parameters")
  | .lambda params body => s.close params body
  | .block statements => s.block eval statements
  | .branch cond yes no => s.branch eval cond yes no
  | .whileLoop cond body => s.whileLoop eval fuel cond body
  | .forLoop init cond step body => s.forLoop eval fuel init cond step body

/-- The value of a node. An error is placed at the innermost node that it comes from. -/
def evaluate : Nat → Evaluator
  | 0, _, _ => throw .outOfFuel
  | fuel + 1, s, id => do
    let node ← s.node id
    (s.value (evaluate fuel) fuel node.kind).locatedAt node.span

/-- Runs the statements of a text, and gives the values of those that are not muted. -/
def run (fuel : Nat) (statements : List Statement) : Evaluation (List (Option Value)) :=
  statements.mapM fun t => do
    s.check
    let v ← evaluate fuel s t.root
    return if t.muted then none else some v

end Setting

end MatrixScript
