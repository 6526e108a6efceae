import MatrixScript.Matrix.Basic

/-!
# Elimination

Determinants and inverses by elimination with partial pivoting: each column takes the row whose
entry has the largest modulus, the last one among equals. Powers multiply out the binary digits of
the exponent.
-/

namespace MatrixScript

/-- Folds over the numbers from `start` up to and without `stop`. -/
def foldBetween {α : Type} (start stop : Nat) (f : Nat → α → α) (x : α) : α :=
  (stop - start).fold (fun k _ x => f (start + k) x) x

namespace Matrix

def requireSquare (m : Matrix) (op : String) : Result Unit :=
  if m.isSquare then .ok () else .error (.dimensionMismatch op m.shape m.shape)

/-- The row, from `col` on, with the largest entry in column `col`. -/
def pivotRow (m : Matrix) (col : Nat) : Nat :=
  foldBetween (col + 1) m.rows
    (fun r best =>
      if (m.cell best col).norm.totalCompare (m.cell r col).norm = .gt then best else r)
    col

def swapRows (m : Matrix) (a b : Nat) : Matrix :=
  if a = b then m
  else
    m.cols.fold
      (fun c _ m =>
        let (z, w) := (m.cell a c, m.cell b c)
        (m.setCell a c w).setCell b c z)
      m

/-- Subtracts a multiple of row `source` from row `r`, in the columns from `start` on. -/
def subtractRow (m : Matrix) (r source : Nat) (factor : Complex) (start : Nat) : Matrix :=
  foldBetween start m.cols
    (fun c m => m.setCell r c (m.cell r c - factor * m.cell source c)) m

/-- Clears a column below its diagonal. -/
def clearBelow (m : Matrix) (col : Nat) : Matrix :=
  let p := m.cell col col
  foldBetween (col + 1) m.rows (fun r m => m.subtractRow r col (m.cell r col / p) col) m

/-- The determinant from the columns that are left, their number going down. -/
def detFrom : Nat → Matrix → Complex → Complex
  | 0, _, det => det
  | left + 1, m, det =>
    let col := m.rows - (left + 1)
    let pivot := m.pivotRow col
    if (m.cell pivot col).isZero then Complex.zero
    else
      let swapped := m.swapRows pivot col
      let signed := if pivot = col then det else -det
      detFrom left (swapped.clearBelow col) (signed * swapped.cell col col)

def det (m : Matrix) : Result Complex := do
  m.requireSquare "det"
  return detFrom m.rows m Complex.one

/-- Divides a row. -/
def divideRow (m : Matrix) (r : Nat) (p : Complex) : Matrix :=
  m.cols.fold (fun c _ m => m.setCell r c (m.cell r c / p)) m

/-- Clears a column in all rows but the one on the diagonal, and does the same to the matrix that
becomes the inverse. -/
def clearColumn (col : Nat) (m inv : Matrix) : Matrix × Matrix :=
  m.rows.fold
    (fun r _ (m, inv) =>
      let factor := m.cell r col
      if r = col || factor.isZero then (m, inv)
      else (m.subtractRow r col factor 0, inv.subtractRow r col factor 0))
    (m, inv)

def inverseFrom : Nat → Matrix → Matrix → Result Matrix
  | 0, _, inv => .ok inv
  | left + 1, m, inv =>
    let col := m.rows - (left + 1)
    let pivot := m.pivotRow col
    if (m.cell pivot col).norm.lt Double.epsilon then .error (.argumentValue "matrix is singular")
    else
      let m := m.swapRows pivot col
      let p := m.cell col col
      let (m, inv) := clearColumn col (m.divideRow col p) ((inv.swapRows pivot col).divideRow col p)
      inverseFrom left m inv

/-- The inverse, unless a pivot is all but zero. -/
def inverse (m : Matrix) : Result Matrix := do
  m.requireSquare "inv"
  let one ← identity m.rows m.rows
  inverseFrom m.rows m one

/-- Multiplies `product` by the power of `square` that the binary digits left in `n` give. The
square is formed once more than it is used. -/
def powFrom : Nat → Nat → Matrix → Matrix → Result Matrix
  | 0, _, product, _ => .ok product
  | fuel + 1, n, product, square => do
    if n = 0 then return product
    let product ← if n % 2 = 1 then product.mul square else pure product
    let square ← square.mul square
    powFrom fuel (n / 2) product square

/-- A whole power; a negative one is a power of the inverse. -/
def pow (m : Matrix) (n : Int) : Result Matrix := do
  m.requireSquare "^"
  let base ← if n < 0 then m.inverse else pure m
  let one ← identity m.rows m.cols
  powFrom (n.natAbs.log2 + 1) n.natAbs one base

end Matrix

end MatrixScript
