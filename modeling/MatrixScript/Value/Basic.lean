import MatrixScript.ElementSet
import MatrixScript.Progression
import MatrixScript.Syntax.Forest

/-!
# Values

What expressions evaluate to. A function is either a lambda, which keeps its body and the variables
it captured, or the name of a library function. A plot only carries its data.

A scalar and the matrix that has just this element are interchangeable wherever a value is read, and
a bounded range can stand for the column of its elements.

Values are well-formed at every level: matrices hold as many elements as their shape says, ranges may
exist, sets hold an element once, and the body of a function is a tree whose links all lead somewhere.
Every way of making values keeps them so, as long as there are numbers for the nodes of the bodies.
-/

namespace MatrixScript

/-- The parameters of a lambda, and its body as the tree below `root`. -/
structure Lambda where
  params : List String
  root : NodeId
  forest : Forest
  /-- The number that tells the lambda and its copies from all others, once it has one. -/
  serial : Option Nat
deriving DecidableEq, Inhabited

mutual

inductive Value where
  | scalar (z : Complex)
  | matrix (m : Matrix)
  | text (s : String)
  | range (r : Progression)
  | set (s : ElementSet)
  | function (f : Callable)
  | plot (title : String) (series : List Series)

inductive Callable where
  | lambda (code : Lambda) (captures : List Capture)
  | named (name : String)

/-- Points, or a function over an interval. -/
inductive Series where
  | points (x y : Matrix)
  | curve (function : Callable) (start stop : Double)

/-- A captured variable. -/
inductive Capture where
  | mk (name : String) (value : Value)

end

instance : Inhabited Value := ⟨.matrix Matrix.empty⟩

def Capture.name : Capture → String
  | mk name _ => name

def Capture.value : Capture → Value
  | mk _ value => value

/-- The number of parameters, where it is known. -/
def Callable.arity? : Callable → Option Nat
  | lambda code _ => some code.params.length
  | named _ => none

def Callable.text : Callable → String
  | lambda code _ => "(" ++ ", ".intercalate code.params ++ ") => <body>"
  | named name => name

namespace Value

def real (x : Double) : Value := scalar (Complex.ofReal x)

/-- One for true and zero for false. -/
def ofBool (b : Bool) : Value := real (if b then Double.one else Double.zero)

def ofNat (n : Nat) : Value := real (Double.ofNat n)

/-- A matrix, or the scalar it is interchangeable with. -/
def ofMatrix (m : Matrix) : Value :=
  match m.scalar? with
  | some z => scalar z
  | none => matrix m

def emptyMatrix : Value := matrix Matrix.empty

def ofElement : Element → Value
  | .number z => scalar z
  | .text s => text s

def kind : Value → Kind
  | scalar _ => .scalar
  | matrix _ => .matrix
  | text _ => .string
  | range _ => .range
  | set _ => .set
  | function _ => .function
  | plot .. => .plot

/-! ### Reading a value as something else -/

def scalar? : Value → Option Complex
  | scalar z => some z
  | matrix m => m.scalar?
  | _ => none

def real? (v : Value) : Option Double := (v.scalar?.filter Complex.isReal).map (·.re)

/-- A whole number that is not negative. -/
def count? (v : Value) : Option Nat :=
  (v.real?.filter fun x => Double.zero.le x && x.isWhole).map (·.toCount)

def text? : Value → Option String
  | text s => some s
  | _ => none

def matrix? : Value → Option Matrix
  | scalar z => some (Matrix.scalar z)
  | matrix m => some m
  | range r => r.toMatrix?
  | _ => none

/-- Whether a condition with this value holds: the real parts have to be nonzero, and there has to
be something. -/
def isTrue : Value → Bool
  | scalar z => !z.re.isZero
  | matrix m => !m.isEmpty && m.data.all fun z => !z.re.isZero
  | text s => !s.isEmpty
  | range r => !r.isEmpty
  | set s => !s.isEmpty
  | function _ | plot .. => true

/-- The shape that indices refer to. -/
def shape? : Value → Option (Nat × Nat)
  | scalar _ => some (1, 1)
  | matrix m => some m.shape
  | text s => some (1, s.length)
  | range r => r.length?.map (·, 1)
  | _ => none

/-- What `end` and `:` stand for as the index at `position` among `count`: a lone index counts all
elements, and of two the first counts rows and the second columns. -/
def indexExtent? (v : Value) (position count : Nat) : Option Nat := do
  let (rows, cols) ← v.shape?
  match count, position with
  | 1, 0 => some (rows * cols)
  | 2, 0 => some rows
  | 2, 1 => some cols
  | _, _ => none

/-! ### Text -/

def plotText (title : String) (series : List Series) : String :=
  let counted := " " ++ toString series.length ++ " series>"
  if title.isEmpty then "<plot with" ++ counted
  else "<plot \"" ++ title ++ "\" with" ++ counted

/-- How a value is shown. -/
def display : Value → String
  | scalar z => z.text
  | matrix m => m.text
  | text s => s
  | range r => r.text
  | set s => s.text
  | function f => f.text
  | plot title series => plotText title series

end Value

/-! ### Well-formed values -/

/-- All links of the body point backwards, and its root is there. -/
structure Lambda.WellFormed (f : Lambda) : Prop where
  links : f.forest.brokenLink? = none
  root : f.forest.contains f.root = true

mutual

def Value.WellFormed : Value → Prop
  | .scalar _ => True
  | .matrix m => m.WellFormed
  | .text _ => True
  | .range r => r.WellFormed
  | .set s => s.WellFormed
  | .function f => f.WellFormed
  | .plot _ series => Series.AllWellFormed series

def Callable.WellFormed : Callable → Prop
  | .lambda code captures => code.WellFormed ∧ Capture.AllWellFormed captures
  | .named _ => True

def Series.WellFormed : Series → Prop
  | .points x y => x.WellFormed ∧ y.WellFormed
  | .curve f _ _ => f.WellFormed

def Series.AllWellFormed : List Series → Prop
  | [] => True
  | s :: rest => s.WellFormed ∧ Series.AllWellFormed rest

def Capture.AllWellFormed : List Capture → Prop
  | [] => True
  | .mk _ v :: rest => v.WellFormed ∧ Capture.AllWellFormed rest

end

/-! ### Serial numbers

Every lambda that a program makes has a serial number of its own, and all copies of it keep this
number. A value read from bytes comes without numbers, so it is numbered before a program gets hold
of it: each lambda in it, at every level, takes the next number. -/

/-- Hands out serial numbers; the state is the next one. -/
abbrev Numbering := StateM Nat

/-- The next serial number. -/
def Numbering.fresh : Numbering Nat := modifyGet fun next => (next, next + 1)

mutual

def Value.numbered : Value → Numbering Value
  | .function f => do return .function (← f.numbered)
  | .plot title series => do return .plot title (← Series.allNumbered series)
  | v => return v

def Callable.numbered : Callable → Numbering Callable
  | .lambda code captures => do
    let serial ← Numbering.fresh
    let captures ← Capture.allNumbered captures
    return .lambda { code with serial := some serial } captures
  | .named name => return .named name

def Series.numbered : Series → Numbering Series
  | .points x y => return .points x y
  | .curve f start stop => do return .curve (← f.numbered) start stop

def Series.allNumbered : List Series → Numbering (List Series)
  | [] => return []
  | s :: rest => do
    let s ← s.numbered
    return s :: (← Series.allNumbered rest)

def Capture.allNumbered : List Capture → Numbering (List Capture)
  | [] => return []
  | .mk name v :: rest => do
    let v ← v.numbered
    return .mk name v :: (← Capture.allNumbered rest)

end

end MatrixScript
