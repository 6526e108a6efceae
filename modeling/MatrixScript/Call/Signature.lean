import MatrixScript.Value.Basic

/-!
# Signatures and arguments

A signature says which values an overload accepts. A slot takes values of one kind, or any value. An
argument of another kind may still fit by conversion: a scalar and the matrix of one element stand
for one another, and a bounded range stands for the matrix of its elements.

At most one slot is variadic. It takes as many arguments as its counts allow, all of one kind. How
many those are follows from the number of arguments of a call, so a call gives every argument its
slot.

The arguments of a matched call, converted to the kinds of their slots. The fixed ones can be asked
for by position, as what they are expected to be; where an argument is missing or is something else,
the answer is an error that says so.
-/

namespace MatrixScript

namespace Value

/-- Whether a value of another kind can be converted to this one. -/
def converts (v : Value) (k : Kind) : Bool :=
  match v, k with
  | matrix m, .scalar => m.scalar?.isSome
  | scalar _, .matrix => true
  | range r, .matrix => !r.isOpen
  | _, _ => false

/-- The value as one of the given kind, where that is a conversion. -/
def converted (v : Value) (k : Kind) : Value :=
  match v, k with
  | matrix m, .scalar => m.scalar?.elim v scalar
  | scalar z, .matrix => matrix (Matrix.scalar z)
  | range r, .matrix => r.toMatrix?.elim v matrix
  | _, _ => v

end Value

/-- What one slot accepts. -/
inductive ParamKind where
  | any
  | only (kind : Kind)
deriving DecidableEq, Inhabited

namespace ParamKind

def text : ParamKind → String
  | any => "any"
  | only k => k.text

def ofText? (s : String) : Option ParamKind :=
  if s = "any" then some any else (Kind.ofText? s).map only

/-- How an argument fits its slot. -/
inductive Fit where
  | exact | coerced | rejected
deriving DecidableEq

def fit : ParamKind → Value → Fit
  | any, _ => .exact
  | only k, v => if v.kind = k then .exact else if v.converts k then .coerced else .rejected

/-- The argument as the slot hands it on. -/
def coerce : ParamKind → Value → Value
  | any, v => v
  | only k, v => v.converted k

end ParamKind

/-- The counts `least`, `least + step`, `least + 2 step` and so on, up to `most` if there is one. -/
structure Variadic where
  kind : ParamKind
  least : Nat
  most : Option Nat
  step : Nat
deriving DecidableEq

namespace Variadic

def acceptsCount (v : Variadic) (n : Nat) : Bool :=
  v.least ≤ n && v.most.all (n ≤ ·) && (n - v.least) % v.step = 0

/-- The width of a slot without a largest count. -/
def unboundedWindow : Nat := 18446744073709551615

/-- How far apart the least and the largest count are. -/
def window (v : Variadic) : Nat := v.most.elim unboundedWindow (· - v.least)

end Variadic

inductive Param where
  | fixed (kind : ParamKind)
  | variadic (v : Variadic)
deriving DecidableEq

namespace Param

def text : Param → String
  | fixed k => k.text
  | variadic v => v.kind.text ++ "..."

def variadic? : Param → Option Variadic
  | fixed _ => none
  | variadic v => some v

end Param

structure Signature where
  params : List Param
deriving DecidableEq, Inhabited

/-- What one argument of a call has to be, and whether it is one of the variadic ones. -/
structure Slot where
  kind : ParamKind
  isVariadic : Bool
deriving DecidableEq, Inhabited

/-- What a parameter asks of an argument. -/
def Param.slot : Param → Slot
  | fixed k => ⟨k, false⟩
  | variadic v => ⟨v.kind, true⟩

/-- How well a signature matches. Conversions of variadic arguments do not count. -/
structure Score where
  coerced : Bool
  window : Nat
deriving DecidableEq

/-- Better or equal: no conversions first, then the narrower window. -/
def Score.le (s t : Score) : Bool :=
  if s.coerced = t.coerced then s.window ≤ t.window else t.coerced

namespace Signature

/-- A signature of fixed slots. -/
def ofKinds (kinds : List Kind) : Signature := ⟨kinds.map fun k => .fixed (.only k)⟩

/-- One fixed slot before a variadic one without a largest count. -/
def withRest (first : Kind) (rest : ParamKind) (least : Nat) : Signature :=
  ⟨[.fixed (.only first), .variadic ⟨rest, least, none, 1⟩]⟩

def text (s : Signature) : String := "(" ++ ", ".intercalate (s.params.map Param.text) ++ ")"

/-- The variadic slot, the first one if there are several. -/
def variadic? (s : Signature) : Option Variadic := s.params.findSome? Param.variadic?

/-- The position of the variadic slot. -/
def variadicAt? (s : Signature) : Option Nat := s.params.findIdx? (·.variadic?.isSome)

/-- Refuses signatures that no call could match. -/
def validate (s : Signature) (name : String) : Result Unit :=
  match s.params.filterMap Param.variadic? with
  | [] => .ok ()
  | [v] =>
    if v.step = 0 then .error (.invalidSignature name "variadic step must be at least 1")
    else if v.most.any (· < v.least) then
      .error (.invalidSignature name "variadic max is below its min")
    else .ok ()
  | _ => .error (.invalidSignature name "at most one variadic slot is allowed")

/-- How many of `n` arguments the variadic slot takes, if `n` arguments can be passed. -/
def restCount? (s : Signature) (n : Nat) : Option Nat :=
  match s.variadic? with
  | none => if n = s.params.length then some 0 else none
  | some v =>
    let fixed := s.params.length - 1
    if fixed ≤ n && v.acceptsCount (n - fixed) then some (n - fixed) else none

/-- The position of the parameter that argument `i` belongs to, when the variadic slot takes `rest`
arguments. The arguments behind these have moved on by all of them but one. -/
def paramAt (s : Signature) (rest i : Nat) : Nat :=
  match s.variadicAt? with
  | none => i
  | some first =>
    if first ≤ i ∧ i < first + rest then first else if first + rest ≤ i then i + 1 - rest else i

/-- The slot of argument `i`. -/
def slot (s : Signature) (rest i : Nat) : Slot :=
  (s.params[s.paramAt rest i]?.map Param.slot).getD default

/-- The slots of a call with `n` arguments. -/
def slots? (s : Signature) (n : Nat) : Option (List Slot) :=
  (s.restCount? n).map fun rest => (List.range n).map (s.slot rest)

/-- How well the signature matches the arguments, if it does. -/
def score? (s : Signature) (args : List Value) : Option Score := do
  let slots ← s.slots? args.length
  let fits := slots.zipWith (fun slot v => (slot, slot.kind.fit v)) args
  if fits.any (·.2 = .rejected) then none
  else
    return ⟨fits.any fun (slot, fit) => fit = .coerced && !slot.isVariadic,
      s.variadic?.elim 0 Variadic.window⟩

end Signature

/-! ### Arguments -/

structure Arguments where
  fixed : List Value
  /-- The arguments of the variadic slot. -/
  rest : List Value

/-- Converts the arguments of a matched call and splits them. -/
def Signature.bind (s : Signature) (args : List Value) : Arguments :=
  let bound :=
    ((s.slots? args.length).getD []).zipWith
      (fun slot v => (slot.isVariadic, slot.kind.coerce v)) args
  ⟨(bound.filter (!·.1)).map (·.2), (bound.filter (·.1)).map (·.2)⟩

namespace Arguments

def isEmpty (a : Arguments) : Bool := a.fixed.isEmpty && a.rest.isEmpty

def get? (a : Arguments) (k : Nat) : Option Value := a.fixed[k]?

/-- The argument at a position that is not what was expected. -/
def wrongKind (k : Nat) (expected : String) (got : Option Value) : Fault :=
  .argumentValue <|
    "argument " ++ toString (k + 1) ++ " must be a " ++ expected ++ ", got "
      ++ got.elim "nothing" ("a " ++ ·.kind.text)

/-- The argument at a position, read by `f`. -/
def read {α : Type} (a : Arguments) (expected : String) (f : Value → Option α) (k : Nat) :
    Result α :=
  match (a.get? k).bind f with
  | some x => .ok x
  | none => .error (wrongKind k expected (a.get? k))

def value (a : Arguments) : Nat → Result Value := a.read "value" some

def scalar (a : Arguments) : Nat → Result Complex := a.read "scalar" Value.scalar?

def real (a : Arguments) : Nat → Result Double := a.read "real number" Value.real?

def count (a : Arguments) : Nat → Result Nat := a.read "non-negative integer" Value.count?

def matrix (a : Arguments) : Nat → Result Matrix :=
  a.read "matrix" fun
    | .matrix m => some m
    | _ => none

def text (a : Arguments) : Nat → Result String := a.read "string" Value.text?

def set (a : Arguments) : Nat → Result ElementSet :=
  a.read "set" fun
    | .set s => some s
    | _ => none

/-- A plot's title and series. -/
def plot (a : Arguments) : Nat → Result (String × List Series) :=
  a.read "plot" fun
    | .plot title series => some (title, series)
    | _ => none

end Arguments

end MatrixScript
