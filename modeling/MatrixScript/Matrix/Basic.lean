import MatrixScript.Evaluation.Fault

/-!
# Matrices

A matrix is its shape and its elements row by row. Most operations are given by what they put into
each cell, so the cell at row `r` and column `c` is the view through which they are understood.

Shapes are limited: no operation makes a matrix of more than `elementLimit` elements.
-/

namespace MatrixScript

/-- The most elements that a matrix may have. -/
def elementLimit : Nat := 134217728

structure Matrix where
  rows : Nat
  cols : Nat
  data : Array Complex
deriving DecidableEq, Inhabited

/-- The elements of a shape, unless they are too many. -/
def elementCount (rows cols : Nat) : Result Nat :=
  if rows * cols ≤ elementLimit then .ok (rows * cols)
  else .error <| .argumentRange <|
    "a " ++ Fault.shapeText (rows, cols) ++ " matrix exceeds the limit of "
      ++ toString elementLimit ++ " elements"

namespace Matrix

/-- The elements fill the shape, and the shape is within the limit. -/
structure WellFormed (m : Matrix) : Prop where
  size_eq : m.data.size = m.rows * m.cols
  size_le : m.rows * m.cols ≤ elementLimit

/-- A matrix of given elements. -/
def ofData (rows cols : Nat) (data : Array Complex) : Result Matrix := do
  let count ← elementCount rows cols
  if data.size = count then return ⟨rows, cols, data⟩
  else
    throw <| .argumentValue <|
      "a " ++ Fault.shapeText (rows, cols) ++ " matrix needs " ++ toString count
        ++ " elements, got " ++ toString data.size

def empty : Matrix := ⟨0, 0, #[]⟩

/-- The matrix with `f r c` in the cell at row `r` and column `c`, both counted from zero. -/
def generate (rows cols : Nat) (f : Nat → Nat → Complex) : Matrix :=
  ⟨rows, cols, Array.ofFn fun k : Fin (rows * cols) => f (k / cols) (k % cols)⟩

/-- The same for a shape that has to be checked first. -/
def ofCells (rows cols : Nat) (f : Nat → Nat → Complex) : Result Matrix := do
  let _ ← elementCount rows cols
  return generate rows cols f

def filled (rows cols : Nat) (z : Complex) : Result Matrix := do
  let count ← elementCount rows cols
  return ⟨rows, cols, Array.replicate count z⟩

def identity (rows cols : Nat) : Result Matrix :=
  ofCells rows cols fun r c => if r = c then Complex.one else Complex.zero

def scalar (z : Complex) : Matrix := ⟨1, 1, #[z]⟩

/-- One row, or none if there are no elements. -/
def rowVector (data : Array Complex) : Matrix := ⟨if data.isEmpty then 0 else 1, data.size, data⟩

/-- One column, or none if there are no elements. -/
def columnVector (data : Array Complex) : Matrix :=
  ⟨data.size, if data.isEmpty then 0 else 1, data⟩

/-- Appends rows that all have to be as long as the first. -/
def appendRows (cols : Nat) : Array Complex → List (List Complex) → Result (Array Complex)
  | data, [] => .ok data
  | data, row :: rows =>
    if row.length = cols then appendRows cols (data ++ row.toArray) rows
    else .error (.dimensionMismatch ";" (1, cols) (1, row.length))

def ofRows (rows : List (List Complex)) : Result Matrix := do
  let cols := (rows.head?.map List.length).getD 0
  let data ← appendRows cols #[] rows
  return ⟨if cols = 0 then 0 else rows.length, cols, data⟩

/-! ### Inspection -/

def shape (m : Matrix) : Nat × Nat := (m.rows, m.cols)

def count (m : Matrix) : Nat := m.data.size

def isEmpty (m : Matrix) : Bool := m.data.isEmpty

def isVector (m : Matrix) : Bool := m.rows = 1 || m.cols = 1

def isSquare (m : Matrix) : Bool := m.rows = m.cols

def isReal (m : Matrix) : Bool := m.data.all Complex.isReal

/-- The element of a matrix that has just one. -/
def scalar? (m : Matrix) : Option Complex :=
  if m.rows = 1 ∧ m.cols = 1 then m.data[0]? else none

/-- The cell at row `r` and column `c`, if there is one. -/
def cell? (m : Matrix) (r c : Nat) : Option Complex :=
  if r < m.rows ∧ c < m.cols then m.data[r * m.cols + c]? else none

/-- The cell at row `r` and column `c`. -/
def cell (m : Matrix) (r c : Nat) : Complex := m.data.getD (r * m.cols + c) Complex.zero

/-- Replaces the cell at row `r` and column `c`. -/
def setCell (m : Matrix) (r c : Nat) (z : Complex) : Matrix :=
  { m with data := m.data.setIfInBounds (r * m.cols + c) z }

/-- Shape and elements are equal, the elements as numbers. -/
def eq (m n : Matrix) : Bool :=
  m.rows == n.rows && m.cols == n.cols && m.data.size == n.data.size
    && (m.data.zip n.data).all fun (z, w) => z.eq w

/-! ### Operations -/

/-- The cells that another shape shares with this one, and zeros. -/
def resized (m : Matrix) (rows cols : Nat) : Result Matrix :=
  ofCells rows cols fun r c => (m.cell? r c).getD Complex.zero

def map (m : Matrix) (f : Complex → Complex) : Matrix := { m with data := m.data.map f }

/-- Applies `f` cell by cell to two matrices of one shape. -/
def zipWith (m n : Matrix) (op : String) (f : Complex → Complex → Complex) : Result Matrix :=
  if m.shape = n.shape then .ok ⟨m.rows, m.cols, Array.zipWith f m.data n.data⟩
  else .error (.dimensionMismatch op m.shape n.shape)

def transpose (m : Matrix) : Matrix := generate m.cols m.rows fun r c => m.cell c r

/-- The transpose with conjugate elements. -/
def adjoint (m : Matrix) : Matrix := generate m.cols m.rows fun r c => (m.cell c r).conj

/-- The sum of `f 0` to `f (n - 1)`, added up from zero in that order. -/
def sumTo (n : Nat) (f : Nat → Complex) : Complex :=
  n.fold (fun k _ sum => sum + f k) Complex.zero

/-- The product of rows with columns. -/
def mul (m n : Matrix) : Result Matrix :=
  if m.cols = n.rows then
    ofCells m.rows n.cols fun r c => sumTo m.cols fun k => m.cell r k * n.cell k c
  else .error (.dimensionMismatch "*" m.shape n.shape)

/-- Puts two matrices side by side. An empty one leaves the other as it is. -/
def beside (m n : Matrix) : Result Matrix :=
  if m.isEmpty then .ok n
  else if n.isEmpty then .ok m
  else if m.rows = n.rows then
    ofCells m.rows (m.cols + n.cols) fun r c =>
      if c < m.cols then m.cell r c else n.cell r (c - m.cols)
  else .error (.dimensionMismatch "," m.shape n.shape)

/-- Puts one matrix above another. An empty one leaves the other as it is. -/
def above (m n : Matrix) : Result Matrix :=
  if m.isEmpty then .ok n
  else if n.isEmpty then .ok m
  else if m.cols = n.cols then do
    let _ ← elementCount (m.rows + n.rows) m.cols
    return ⟨m.rows + n.rows, m.cols, m.data ++ n.data⟩
  else .error (.dimensionMismatch ";" m.shape n.shape)

/-- The Euclidean norm over all elements. A sum of no squares is the negative zero, which is what
adding up starts from. -/
def norm (m : Matrix) : Double :=
  (m.data.foldl (fun sum z => sum + (z.re * z.re + z.im * z.im)) Double.negativeZero).sqrt

def rowText (m : Matrix) (r : Nat) : String :=
  ", ".intercalate ((List.range m.cols).map fun c => (m.cell r c).text)

/-- Rows between brackets, separated by semicolons. -/
def text (m : Matrix) : String :=
  if m.isEmpty then "[]"
  else "[" ++ "; ".intercalate ((List.range m.rows).map m.rowText) ++ "]"

end Matrix

end MatrixScript
