import MatrixScript.Evaluation.Machine
import MatrixScript.Value.Index

/-!
# Calls

Parentheses behind a function are a call, and behind any other value an index. In an index argument
`end` stands for the extent that the argument counts against, and a lone colon for all of it.

A lambda runs in a scope of its own, with its captured variables and its parameters. The value of a
lambda expression captures what the names in its body stand for at that time.
-/

namespace MatrixScript

namespace Setting

variable (s : Setting) (eval : Evaluator)

def arguments (ids : List NodeId) : Evaluation (List Value) := ids.mapM (eval s)

/-- One of `count` index arguments. -/
def indexArgument (target : Value) (count : Nat) (arg : NodeId × Nat) : Evaluation IndexArg := do
  match ← s.kind arg.1 with
  | .everything => return .all
  | _ => return .value (← Evaluation.withExtent (target.indexExtent? arg.2 count) (eval s arg.1))

def indexArguments (target : Value) (ids : List NodeId) : Evaluation (List IndexArg) :=
  ids.zipIdx.mapM (s.indexArgument eval target ids.length)

def arityFault (params : List String) (count : Nat) : Fault :=
  .argumentValue <|
    "the function (" ++ ", ".intercalate params ++ ") expects " ++ toString params.length
      ++ " arguments, got " ++ toString count

def callLambda (code : Lambda) (captures : List Capture) (args : List Value) :
    Evaluation Value :=
  if args.length ≠ code.params.length then
    Evaluation.fail (arityFault code.params args.length)
  else
    match s.depth.enter? with
    | none => Evaluation.fail (.recursionLimit s.depth.limit)
    | some depth =>
      let bindings := captures.map (fun c => (c.name, c.value)) ++ code.params.zip args
      Evaluation.inScope bindings (eval { s with forest := code.forest, depth } code.root)

def callFunction (f : Callable) (args : List Value) : Evaluation Value :=
  match f with
  | .named name => Evaluation.native (s.library.call name args)
  | .lambda code captures => s.callLambda eval code captures args

/-- Calls a function, or indexes another value. -/
def apply (target : Value) (ids : List NodeId) : Evaluation Value := do
  match target with
  | .function f => s.callFunction eval f (← s.arguments eval ids)
  | .set _ | .plot .. => Evaluation.fail (.notCallable target.kind)
  | _ => Evaluation.ofResult (target.index (← s.indexArguments eval target ids))

/-- A call by name: of a variable, of a library function, or of a constant. -/
def callNamed (name : String) (ids : List NodeId) : Evaluation Value := do
  if let some target ← Evaluation.visible? name then s.apply eval target ids
  else if s.library.hasFunction name then
    let args ← s.arguments eval ids
    Evaluation.native (s.library.call name args)
  else
    let target ← Evaluation.orFail (s.library.constant? name) (.symbolMissing name)
    s.apply eval target ids

def call (callee : NodeId) (ids : List NodeId) : Evaluation Value := do
  match ← s.kind callee with
  | .name name => s.callNamed eval name ids
  | _ => s.apply eval (← eval s callee) ids

/-- The names in a body that are not parameters. -/
def namesIn (f : Forest) (params : List String) : List String :=
  f.nodes.toList.filterMap fun node =>
    match node.kind with
    | .name name => if params.contains name then none else some name
    | _ => none

/-- The value of a lambda expression. -/
def close (params : List String) (body : NodeId) : Evaluation Value := do
  match s.forest.extract body with
  | .error id => throw (.missingNode id)
  | .ok (root, forest) =>
    let captures := (← get).environment.capture (namesIn forest params)
    return .function (.lambda ⟨params, root, forest, some (← Evaluation.freshSerial)⟩ captures)

end Setting

end MatrixScript
