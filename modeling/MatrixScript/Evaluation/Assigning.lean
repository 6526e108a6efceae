import MatrixScript.Evaluation.Calling
import MatrixScript.Value.Operators

/-!
# Assignments

A name, elements of a variable, or several names at once can be assigned to. The assigned value is
evaluated first, and nothing is bound before all that can fail has succeeded. A compound assignment
combines the old value with the new one.
-/

namespace MatrixScript

namespace Setting

variable (s : Setting) (eval : Evaluator)

/-- The value that an assignment binds, given how the old one is read. -/
def combined (op : Option BinaryOp) (old : Evaluation Value) (v : Value) : Evaluation Value :=
  match op with
  | none => return v
  | some op => do Evaluation.ofResult (Value.binary op (← old) v)

def oldValue (name : String) : Evaluation Value := do
  Evaluation.orFail (← Evaluation.visible? name) (.symbolMissing name)

def assignName (name : String) (op : Option BinaryOp) (value : NodeId) : Evaluation Value := do
  let v ← eval s value
  let v ← combined op (oldValue name) v
  Evaluation.define name v
  return v

/-- The variable whose elements are assigned to. One that does not exist starts out empty, unless
its elements are to be read. -/
def indexedVariable (name : String) (op : Option BinaryOp) : Evaluation Value :=
  match op with
  | some _ => oldValue name
  | none => return (← Evaluation.visible? name).getD Value.emptyMatrix

def assignElements (name : String) (ids : List NodeId) (op : Option BinaryOp) (value : NodeId) :
    Evaluation Value := do
  let v ← eval s value
  let target ← indexedVariable name op
  let args ← s.indexArguments eval target ids
  let v ← combined op (Evaluation.ofResult (target.index args)) v
  let changed ← Evaluation.ofResult (target.assignIndex args v)
  Evaluation.define name changed
  return v

/-- The values that several names are assigned: one element each, or the same number for all. -/
def spreadOver (names : List String) (v : Value) : Result (List (String × Value)) :=
  match v.matrix? with
  | none => .error (.unsupported "[..] =" v.kind none)
  | some m =>
    match m.scalar? with
    | some z => .ok (names.map (·, .scalar z))
    | none =>
      if m.count = names.length then .ok (names.zip (m.data.toList.map .scalar))
      else
        .error <| .argumentValue <|
          "cannot assign " ++ toString m.count ++ " values to " ++ toString names.length
            ++ " variables"

/-- The names among some nodes. -/
def namesAmong (ids : List NodeId) : Evaluation (List String) := do
  let kinds ← ids.mapM s.kind
  return kinds.filterMap fun
    | .name name => some name
    | _ => none

def assignNames (ids : List NodeId) (value : NodeId) : Evaluation Value := do
  let names ← s.namesAmong ids
  let v ← eval s value
  let bindings ← Evaluation.ofResult (spreadOver names v)
  Evaluation.modifyEnvironment (·.defineAll bindings)
  return v

def assign (target : NodeId) (op : Option BinaryOp) (value : NodeId) : Evaluation Value := do
  match ← s.kind target with
  | .name name => s.assignName eval name op value
  | .call callee ids =>
    match ← s.kind callee with
    | .name name => s.assignElements eval name ids op value
    | k => Evaluation.fail (.argumentValue ("cannot assign to an index of a " ++ k.describe))
  | .matrix rows => s.assignNames eval rows.flatten value
  | k => Evaluation.fail (.argumentValue ("cannot assign to " ++ k.describe))

end Setting

end MatrixScript
