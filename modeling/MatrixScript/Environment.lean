import MatrixScript.Value.Basic

/-!
# Environments

Variables live in scopes. The outermost one holds the variables of the session, and every call of a
lambda opens another one. A name is looked up from the innermost scope outwards and is always bound
in the innermost one, so a call cannot change the variables of its caller.
-/

namespace MatrixScript

/-- The bindings of one level, each name once. -/
abbrev Scope := List (String × Value)

namespace Scope

def lookup (s : Scope) (name : String) : Option Value := (s.find? (·.1 == name)).map (·.2)

def erase (s : Scope) (name : String) : Scope := s.filter (·.1 != name)

def define (s : Scope) (name : String) (v : Value) : Scope := (name, v) :: erase s name

end Scope

structure Environment where
  innermost : Scope
  /-- From the next inner one outwards. -/
  outer : List Scope
deriving Inhabited

namespace Environment

def empty : Environment := ⟨[], []⟩

def scopes (e : Environment) : List Scope := e.innermost :: e.outer

/-- The number of scopes. -/
def depth (e : Environment) : Nat := e.scopes.length

def push (e : Environment) : Environment := ⟨[], e.scopes⟩

/-- Closes the innermost scope. The last one stays. -/
def pop (e : Environment) : Environment :=
  match e.outer with
  | [] => e
  | s :: rest => ⟨s, rest⟩

/-- Binds a name in the innermost scope. -/
def define (e : Environment) (name : String) (v : Value) : Environment :=
  { e with innermost := e.innermost.define name v }

def defineAll (e : Environment) (bindings : List (String × Value)) : Environment :=
  bindings.foldl (fun e (name, v) => e.define name v) e

/-- The visible value of a name. -/
def lookup (e : Environment) (name : String) : Option Value :=
  e.scopes.findSome? (Scope.lookup · name)

def contains (e : Environment) (name : String) : Bool := (e.lookup name).isSome

/-- Erases a name from the first scope that binds it. -/
def eraseFirst (name : String) : List Scope → List Scope
  | [] => []
  | s :: rest => if (s.lookup name).isSome then s.erase name :: rest else s :: eraseFirst name rest

/-- Erases the visible binding of a name. -/
def erase (e : Environment) (name : String) : Environment :=
  if (e.innermost.lookup name).isSome then { e with innermost := e.innermost.erase name }
  else { e with outer := eraseFirst name e.outer }

/-- Erases all bindings of the innermost scope. -/
def clear (e : Environment) : Environment := { e with innermost := [] }

/-- The variables of the session by name. -/
def sessionVariables (e : Environment) : List (String × Value) :=
  (e.outer.getLastD e.innermost).mergeSort fun x y => x.1 ≤ y.1

/-- The visible values of some names, each once and by name. -/
def capture (e : Environment) (names : List String) : List Capture :=
  (names.eraseDups.mergeSort (· ≤ ·)).filterMap fun name => (e.lookup name).map (.mk name ·)

end Environment

end MatrixScript
