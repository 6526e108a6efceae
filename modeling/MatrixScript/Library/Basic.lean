import MatrixScript.Call.Signature
import MatrixScript.Environment
import MatrixScript.Text.Hidden

/-!
# Libraries

A library holds functions and constants by name; no name is both. A function is a list of overloads
with different signatures. A call goes to the overload that matches best: without conversions of
fixed arguments rather than with them, and then with the narrower variadic slot. Where several
overloads match equally well, the call is ambiguous.
-/

namespace MatrixScript

/-- What a library function does, given the name it was called by and its arguments. It may look at
and change the variables. -/
abbrev Native := String → Arguments → ExceptT Fault (StateM Environment) Value

namespace Native

/-- A function of the arguments alone. -/
def ofResult (f : Arguments → Result Value) : Native := fun _ args => ExceptT.mk (pure (f args))

end Native

structure Overload where
  signature : Signature
  run : Native

namespace Overload

def text (o : Overload) : String := "Overload" ++ o.signature.text

/-- An overload with fixed slots that leaves the variables alone. -/
def fixed (kinds : List Kind) (f : Arguments → Result Value) : Overload :=
  ⟨.ofKinds kinds, .ofResult f⟩

/-- The best match so far, and how many are as good as it. -/
structure Lead where
  overload : Overload
  score : Score
  tied : Nat

/-- The best match after one more overload has been looked at. -/
def meet (args : List Value) (best : Option Lead) (o : Overload) : Option Lead :=
  match o.signature.score? args with
  | none => best
  | some score =>
    match best with
    | none => some ⟨o, score, 1⟩
    | some lead =>
      if !score.le lead.score then best
      else if score = lead.score then some { lead with tied := lead.tied + 1 }
      else some ⟨o, score, 1⟩

/-- The one overload that a call goes to. -/
def select (name : String) (overloads : List Overload) (args : List Value) : Result Overload :=
  match overloads.foldl (meet args) none with
  | none => .error (.noMatchingOverload name (args.map Value.kind))
  | some lead =>
    if 1 < lead.tied then .error (.ambiguousOverload name (args.map Value.kind) lead.tied)
    else .ok lead.overload

end Overload

structure Library where
  functions : List (String × List Overload)
  constants : List (String × Value)

namespace Library

def empty : Library := ⟨[], []⟩

def constant? (l : Library) (name : String) : Option Value :=
  (l.constants.find? (·.1 == name)).map (·.2)

/-- The overloads of a function in the order of their registration. -/
def overloads (l : Library) (name : String) : List Overload :=
  ((l.functions.find? (·.1 == name)).map (·.2)).getD []

def hasFunction (l : Library) (name : String) : Bool := l.functions.any (·.1 == name)

/-- What a name without a variable stands for: a constant, or a function as a value. -/
def value? (l : Library) (name : String) : Option Value :=
  (l.constant? name).or (if l.hasFunction name then some (.function (.named name)) else none)

/-- Adds an overload behind those that the function has. -/
def insert (l : Library) (name : String) (o : Overload) : Library :=
  if l.hasFunction name then
    { l with
      functions := l.functions.map fun (n, os) => if n == name then (n, os ++ [o]) else (n, os) }
  else { l with functions := l.functions ++ [(name, [o])] }

/-- Works on the tables of a library. What it has done to them stays if it fails. -/
abbrev Registering := ExceptT Fault (StateM Library)

/-- Adds an overload, unless its signature is taken or could never match. -/
def addFunction (name : String) (o : Overload) : Registering Unit := do
  o.signature.validate name
  let l ← get
  if (l.constant? name).isSome || (l.overloads name).any (·.signature = o.signature) then
    throw (.duplicateRegistration (name ++ o.signature.text))
  else set (l.insert name o)

/-- Adds a constant, unless the name is taken. -/
def addConstant (name : String) (v : Value) : Registering Unit := do
  let l ← get
  if (l.constant? name).isSome || l.hasFunction name then throw (.duplicateRegistration name)
  else set { l with constants := l.constants ++ [(name, v)] }

/-- The library that registering leaves behind, unless it fails. -/
def registered (l : Library) (x : Registering Unit) : Result Library := ((x *> get).run.run l).1

def register (l : Library) (name : String) (o : Overload) : Result Library :=
  l.registered (addFunction name o)

def registerConstant (l : Library) (name : String) (v : Value) : Result Library :=
  l.registered (addConstant name v)

def sortedNames {α : Type} (table : List (String × α)) : List String :=
  (table.map (·.1)).mergeSort (· ≤ ·)

def functionNames (l : Library) : List String := sortedNames l.functions

/-- The names that a library holds. -/
def text (l : Library) : String :=
  "Library \x7b functions: " ++ listing (l.functionNames.map quoted) ++ ", constants: "
    ++ listing ((sortedNames l.constants).map quoted) ++ " \x7d"

/-- Calls a function by its name. -/
def call (l : Library) (name : String) (args : List Value) :
    ExceptT Fault (StateM Environment) Value :=
  match l.overloads name with
  | [] => throw (.symbolMissing name)
  | overloads =>
    match Overload.select name overloads args with
    | .error fault => throw fault
    | .ok o => o.run name (o.signature.bind args)

end Library

end MatrixScript
