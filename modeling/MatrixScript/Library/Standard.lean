import MatrixScript.Library.Basic
import MatrixScript.Value.Operators
import MatrixScript.Library.Matrices

/-!
# The standard library

Beside the functions on matrices there are those of one number, which work element by element on a
matrix, and functions on variables, sets and plots.

A scalar or a text is one element of a set. A set without order also takes all elements of a matrix.

A plot of points takes abscissae and ordinates; without abscissae a row or a column is plotted
against its positions, and any other matrix against its first column. A function is plotted over an
interval.
-/

namespace MatrixScript

namespace Elementary

/-- The functions of one number by name. -/
def functions : List (String × (Complex → Complex)) :=
  [ ("abs", fun z => .ofReal z.norm),
    ("sqrt", Complex.sqrt),
    ("exp", Complex.exp),
    ("ln", Complex.ln),
    ("log", Complex.log10),
    ("sin", Complex.sin),
    ("cos", Complex.cos),
    ("tan", Complex.tan),
    ("cot", Complex.cot),
    ("floor", Complex.mapParts Double.floor),
    ("ceil", Complex.mapParts Double.ceil),
    ("round", Complex.mapParts Double.round),
    ("real", fun z => .ofReal z.re),
    ("imag", fun z => .ofReal z.im),
    ("conj", Complex.conj),
    ("arg", fun z => .ofReal z.arg),
    ("isnan", fun z => .ofBool z.isNaN) ]

/-- The overloads of a function of one number. -/
def elementwise (f : Complex → Complex) : List Overload :=
  [ .fixed [.scalar] fun args => do return .scalar (f (← args.scalar 0)),
    .fixed [.matrix] fun args => do return .matrix ((← args.matrix 0).map f) ]

def factorial : List Overload :=
  [ .fixed [.scalar] fun args => do Value.factorial (.scalar (← args.scalar 0)),
    .fixed [.matrix] fun args => do Value.factorial (.matrix (← args.matrix 0)) ]

def table : List (String × List Overload) :=
  functions.map (fun (name, f) => (name, elementwise f)) ++ [("factorial", factorial)]

end Elementary

/-! ### Functions on variables -/

namespace Variables

def clearedText (n : Nat) : Value := .text (toString n ++ " objects cleared.")

/-- Erases all variables of the innermost scope. -/
def clearAll : Native := fun _ _ => do
  let e ← get
  set e.clear
  return clearedText e.innermost.length

/-- Erases names one after another, and counts those that were still visible. -/
def eraseAll (names : List String) (e : Environment) : Nat × Environment :=
  names.foldl
    (fun (n, e) name => (if e.contains name then n + 1 else n, e.erase name)) (0, e)

/-- Erases the visible bindings of some names. All of them have to exist. -/
def clearNames : Native := fun _ args => do
  let names := args.rest.filterMap Value.text?
  let e ← get
  match names.find? fun name => !e.contains name with
  | some missing =>
    throw (.argumentValue ("The variable " ++ missing ++ " does not exist."))
  | none =>
    let (n, e) := eraseAll names e
    set e
    return clearedText n

def doesExist : Native := fun _ args => do
  let name ← args.text 0
  return .ofBool ((← get).contains name)

def table : List (String × List Overload) :=
  [ ("clear",
      [⟨⟨[]⟩, clearAll⟩, ⟨⟨[.variadic ⟨.only .string, 1, none, 1⟩]⟩, clearNames⟩]),
    ("exists", [⟨.ofKinds [.string], doesExist⟩]) ]

end Variables

/-! ### Functions on sets -/

/-- The elements that a value adds to a set. -/
def ElementSet.elementsOf (s : ElementSet) (v : Value) : Result (List Element) :=
  match v.scalar?, v with
  | some z, _ => .ok [.number z]
  | none, .text t => .ok [.text t]
  | none, .matrix m => if s.ordered then refused else .ok (m.data.toList.map .number)
  | none, _ => refused
where
  refused : Result (List Element) :=
    .error <| .argumentValue <|
      "a " ++ v.kind.text ++ " value cannot be added to the "
        ++ (if s.ordered then "sorted" else "unordered") ++ " set " ++ s.name

/-- Adds what a value holds. -/
def ElementSet.insertValue (s : ElementSet) (v : Value) : Result ElementSet :=
  s.insertAll <$> s.elementsOf v

namespace Sets

/-- A set with a name, of what the other arguments hold. -/
def make (ordered : Bool) : List Overload :=
  [⟨.withRest .string .any 0, .ofResult fun args => do
    let s := ElementSet.empty (← args.text 0) ordered
    return .set (← args.rest.foldlM ElementSet.insertValue s)⟩]

def set? : Value → Option ElementSet
  | .set s => some s
  | _ => none

/-- Combines all sets that are passed. The result has the names of all of them. -/
def combine (separator : String) (op : ElementSet → ElementSet → ElementSet) : List Overload :=
  [⟨.withRest .set (.only .set) 1, .ofResult fun args => do
    let first ← args.set 0
    let rest := args.rest.filterMap set?
    let name := "(" ++ separator.intercalate ((first :: rest).map (·.name)) ++ ")"
    return .set ((rest.foldl op first).renamed name)⟩]

def table : List (String × List Overload) :=
  [ ("newset", make false),
    ("newsortedset", make true),
    ("union", combine "+" ElementSet.union),
    ("intersect", combine "*" ElementSet.intersect),
    ("tassort", [.fixed [.set] fun args => do return .set (← args.set 0).sorted]) ]

end Sets

/-! ### Plots -/

namespace Plots

/-- The numbers from one to `n`. -/
def positions (n : Nat) : Matrix :=
  .rowVector (Array.ofFn fun k : Fin n => Complex.ofNat (k + 1))

def asRow (m : Matrix) : Matrix := .rowVector m.data

/-- A column laid out as a row. -/
def columnRow (m : Matrix) (c : Nat) : Matrix := .rowVector (m.column c)

/-- Ordinates against abscissae: one series for a row or a column of as many, and otherwise one for
each column. -/
def series (x y : Matrix) : Result (List Series) :=
  if y.isVector && y.count = x.count then .ok [.points (asRow x) (asRow y)]
  else if y.rows = x.count then
    .ok ((List.range y.cols).map fun c => .points (asRow x) (columnRow y c))
  else .error (.dimensionMismatch "plot" x.shape y.shape)

def ofMatrix (y : Matrix) : Result Value :=
  if y.isVector then .plot "" <$> series (positions y.count) y
  else
    let x := columnRow y 0
    .ok (.plot "" ((List.range (y.cols - 1)).map fun c => .points x (columnRow y (c + 1))))

/-- The series of one further argument. -/
def seriesOf (x : Matrix) : Value → Result (List Series)
  | .matrix y => series x y
  | v => .error (.argumentValue ("cannot plot a " ++ v.kind.text))

def ofMatrices (args : Arguments) : Result Value := do
  let x ← args.matrix 0
  return .plot "" (← args.rest.mapM (seriesOf x)).flatten

def ofFunction (args : Arguments) : Result Value :=
  match args.get? 0 with
  | some (.function f) => do
    let start ← args.real 1
    let stop ← args.real 2
    if stop.le start then
      throw <| .argumentValue <|
        "the plot interval " ++ start.signedText ++ " to " ++ stop.signedText ++ " is empty"
    else return .plot "" [.curve f start stop]
  | _ => .error (.argumentValue "argument 1 must be a function")

def withTitle (args : Arguments) : Result Value := do
  let (_, series) ← args.plot 0
  return .plot (← args.text 1) series

def table : List (String × List Overload) :=
  [ ("plot",
      [ .fixed [.matrix] fun args => do ofMatrix (← args.matrix 0),
        ⟨.withRest .matrix (.only .matrix) 1, .ofResult ofMatrices⟩,
        .fixed [.function, .scalar, .scalar] ofFunction ]),
    ("title", [.fixed [.plot, .string] withTitle]) ]

end Plots

/-! ### The library -/

def Library.standard : Library where
  functions :=
    Elementary.table ++ Matrices.table ++ Variables.table ++ Sets.table ++ Plots.table
  constants :=
    [ ("pi", .real Double.pi),
      ("e", .real Double.e),
      ("i", .scalar Complex.i),
      ("inf", .real Double.infinity),
      ("nan", .real Double.nan) ]

end MatrixScript
