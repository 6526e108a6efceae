import MatrixScript.Library.Basic
import MatrixScript.Matrix.Eigenvalues

/-!
# Functions on matrices

Making matrices, asking for their shape, and linear algebra. Reductions turn a row or a column into
one number and any other matrix into the row of the results for its columns. Sorting works on
columns in the same way.

The magic square of order `n` holds the numbers from one to `n * n`, and all rows, columns and both
diagonals have the same sum. There are three constructions: one for odd orders, one for the
multiples of four, and one that puts the other even orders together from four odd squares and then
exchanges entries of the upper and the lower half. Squares are stored row by row; rows and columns
are counted from zero.
-/

namespace MatrixScript

namespace Magic

/-- The square with `f r c` at row `r` and column `c`. -/
def tabulate (n : Nat) (f : Nat → Nat → Nat) : Array Nat :=
  Array.ofFn fun k : Fin (n * n) => f (k / n) (k % n)

/-- Odd orders. Steps along the two kinds of diagonals give the two digits of an entry. -/
def odd (n r c : Nat) : Nat := n * ((r + c + 1 + n / 2) % n) + (r + 2 * c + 1) % n + 1

/-- Multiples of four: the numbers in order, and where row and column belong to the same half of
their block of four, the numbers in reverse. -/
def doublyEven (n r c : Nat) : Nat :=
  if (r + 1) % 4 / 2 = (c + 1) % 4 / 2 then n * n - (r * n + c) else r * n + c + 1

/-- Writes an entry of the square of half the order `p` to its four places, shifted by multiples of
the number of these entries. -/
def writeQuarters (p : Nat) (quadrant cells : Array Nat) (r c : Nat) : Array Nat :=
  let n := 2 * p
  let a := quadrant.getD (r * p + c) 0
  let cells := cells.setIfInBounds (r * n + c) a
  let cells := cells.setIfInBounds (r * n + (c + p)) (a + 2 * (p * p))
  let cells := cells.setIfInBounds ((r + p) * n + c) (a + 3 * (p * p))
  cells.setIfInBounds ((r + p) * n + (c + p)) (a + p * p)

/-- Four odd squares of order `p` side by side. -/
def quarters (p : Nat) : Array Nat :=
  let quadrant := tabulate p (odd p)
  p.fold (fun r _ cells => p.fold (fun c _ cells => writeQuarters p quadrant cells r c) cells)
    (Array.replicate (2 * p * (2 * p)) 0)

/-- Exchanges two entries of a column, at row `r` of the upper and of the lower half. -/
def exchange (p : Nat) (cells : Array Nat) (r c : Nat) : Array Nat :=
  cells.swapIfInBounds (r * (2 * p) + c) ((r + p) * (2 * p) + c)

/-- Exchanges all entries of a column. -/
def exchangeColumn (p : Nat) (cells : Array Nat) (c : Nat) : Array Nat :=
  p.fold (fun r _ cells => exchange p cells r c) cells

/-- The columns whose halves change places. -/
def exchangedColumns (n k : Nat) : List Nat := List.range k ++ List.range' (n - k + 1) (k - 1)

/-- The even orders that are not multiples of four. -/
def singlyEvenSquare (n : Nat) : Array Nat :=
  let p := n / 2
  let k := (n - 2) / 4
  let cells := (exchangedColumns n k).foldl (exchangeColumn p) (quarters p)
  [0, k].foldl (fun cells c => exchange p cells k c) cells

/-- The magic square of order `n`. -/
def square (n : Nat) : Array Nat :=
  if n % 2 = 1 then tabulate n (odd n)
  else if n % 4 = 0 then tabulate n (doublyEven n)
  else singlyEvenSquare n

end Magic

/-! ### The functions -/

namespace Matrix

/-- The entries of a column, if there is one with this number. -/
def column (m : Matrix) (c : Nat) : Array Complex :=
  if c < m.cols then Array.ofFn fun r : Fin m.rows => m.cell r c else #[]

/-- Applies `f` to a row or a column as a whole, and to each column of any other matrix. -/
def reduce (m : Matrix) (f : Array Complex → Complex) : Value :=
  if m.isVector then .scalar (f m.data)
  else .matrix (rowVector (Array.ofFn fun c : Fin m.cols => f (m.column c)))

def sum (data : Array Complex) : Complex := data.foldl (· + ·) Complex.zero

/-- The largest entry if the wanted order is `gt`, and the smallest if it is `lt`. -/
def extreme (wanted : Ordering) (data : Array Complex) : Complex :=
  data.foldl (fun best z => if z.totalCompare best = wanted then z else best)
    (data.getD 0 Complex.zero)

/-- The entries in ascending order. -/
def sortData (data : Array Complex) : Array Complex :=
  (data.toList.mergeSort fun z w => z.totalCompare w != .gt).toArray

/-- Sorts a row or a column as a whole, and each column of any other matrix. -/
def sorted (m : Matrix) : Result Value :=
  if m.isVector then Value.ofMatrix <$> ofData m.rows m.cols (sortData m.data)
  else
    let columns := Array.ofFn fun c : Fin m.cols => sortData (m.column c)
    Value.matrix <$> ofCells m.rows m.cols fun r c => (columns.getD c #[]).getD r Complex.zero

/-- The sum of the diagonal. -/
def trace (m : Matrix) : Result Complex :=
  if m.isSquare then .ok (sumTo m.rows fun k => m.cell k k)
  else
    .error <| .argumentValue <| "trace needs a square matrix, got " ++ Fault.shapeText m.shape

/-- The magic square of order `n`. -/
def magic (n : Nat) : Result Matrix :=
  if n = 2 then .error (.argumentValue "there is no magic square of order 2")
  else do
    let _ ← elementCount n n
    let cells := Magic.square n
    ofCells n n fun r c => Complex.ofNat (cells.getD (r * n + c) 0)

/-- The larger extent of a matrix; one without elements has none. -/
def length (m : Matrix) : Nat := if m.rows = 0 || m.cols = 0 then 0 else max m.rows m.cols

end Matrix

namespace Matrices

/-- A function of one matrix. -/
def ofMatrix (f : Matrix → Result Value) : List Overload :=
  [.fixed [.matrix] fun args => do f (← args.matrix 0)]

/-- A matrix of a shape: one element, a square, or rows and columns. -/
def shaped (build : Nat → Nat → Result Matrix) : List Overload :=
  [ .fixed [] fun _ => Value.ofMatrix <$> build 1 1,
    .fixed [.scalar] fun args => do
      let n ← args.count 0
      Value.ofMatrix <$> build n n,
    .fixed [.scalar, .scalar] fun args => do
      let rows ← args.count 0
      let cols ← args.count 1
      Value.ofMatrix <$> build rows cols ]

/-- A shape as a row of two numbers. -/
def shapeValue (shape : Nat × Nat) : Value :=
  .matrix (Matrix.rowVector #[Complex.ofNat shape.1, Complex.ofNat shape.2])

/-- The length of a range, which an open one does not have. -/
def rangeLength : Option Value → Result Value
  | some (.range r) =>
    match r.length? with
    | some n => .ok (.ofNat n)
    | none => .error (.argumentValue "an open range has no length")
  | _ => .error (.argumentValue "argument 1 must be a range")

def length : List Overload :=
  [ .fixed [.matrix] fun args => do return .ofNat (← args.matrix 0).length,
    .fixed [.string] fun args => do return .ofNat (← args.text 0).length,
    .fixed [.set] fun args => do return .ofNat (← args.set 0).size,
    .fixed [.range] fun args => rangeLength (args.get? 0) ]

def size : List Overload :=
  [ .fixed [.matrix] fun args => do return shapeValue (← args.matrix 0).shape,
    .fixed [.string] fun args => do return shapeValue (1, (← args.text 0).length) ]

def sum (m : Matrix) : Result Value :=
  .ok (if m.isEmpty then .real Double.zero else m.reduce Matrix.sum)

/-- The extreme entry of a matrix, or of the numbers that are passed. -/
def extreme (wanted : Ordering) : List Overload :=
  [ .fixed [.matrix] fun args => do
      let m ← args.matrix 0
      return if m.isEmpty then Value.emptyMatrix else m.reduce (Matrix.extreme wanted),
    ⟨.withRest .scalar (.only .scalar) 1, .ofResult fun args => do
      let first ← args.scalar 0
      let rest := args.rest.filterMap Value.scalar?
      return .scalar (Matrix.extreme wanted (first :: rest).toArray)⟩ ]

def eigenvalues (m : Matrix) : Result Value := do
  return .ofMatrix (Matrix.columnVector (← m.eigenvalues).toArray)

def eigenvectors (m : Matrix) : Result Value := do
  Value.ofMatrix <$> m.eigenvectors (← m.eigenvalues)

def magic : List Overload :=
  [.fixed [.scalar] fun args => do Value.ofMatrix <$> Matrix.magic (← args.count 0)]

def table : List (String × List Overload) :=
  [ ("eye", shaped Matrix.identity),
    ("ones", shaped (Matrix.filled · · Complex.one)),
    ("zeros", shaped (Matrix.filled · · Complex.zero)),
    ("length", length),
    ("size", size),
    ("sum", ofMatrix sum),
    ("max", extreme .gt),
    ("min", extreme .lt),
    ("sort", ofMatrix Matrix.sorted),
    ("det", ofMatrix fun m => Value.scalar <$> m.det),
    ("inv", ofMatrix fun m => Value.ofMatrix <$> m.inverse),
    ("trace", ofMatrix fun m => Value.scalar <$> m.trace),
    ("transpose", ofMatrix fun m => .ok (Value.ofMatrix m.transpose)),
    ("eig", ofMatrix eigenvalues),
    ("eigval", ofMatrix eigenvalues),
    ("ev", ofMatrix eigenvectors),
    ("eigvec", ofMatrix eigenvectors),
    ("magic", magic) ]

end Matrices

end MatrixScript
