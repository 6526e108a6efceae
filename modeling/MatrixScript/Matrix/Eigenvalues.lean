import MatrixScript.Matrix.Elimination

/-!
# Eigenvalues and eigenvectors

Shifted QR iteration on complex matrices. The iteration works on the leading block of rows and
columns whose eigenvalues are still unknown. When the last row of that block has all but vanished to
the left of its diagonal, the diagonal entry is an eigenvalue and the block loses that row;
otherwise one more sweep is made, three hundred at most per eigenvalue.

A block carries its size in its type and is indexed by numbers below that size, so a sweep cannot
touch anything outside of it.

Inverse iteration: solving `(A - λ) x = b` over and over turns `b` toward the eigenvectors of `λ`.
Vectors of one and the same eigenvalue are kept at right angles.
-/

namespace MatrixScript

/-- A square of `n` rows and columns. -/
structure Square (n : Nat) where
  cells : Vector Complex (n * n)

namespace Square

theorem offset_lt {n i j : Nat} (hi : i < n) (hj : j < n) : i * n + j < n * n :=
  calc
    i * n + j < i * n + n := Nat.add_lt_add_left hj _
    _ = (i + 1) * n := (Nat.succ_mul i n).symm
    _ ≤ n * n := Nat.mul_le_mul_right n hi

variable {n : Nat}

def get (s : Square n) (i j : Fin n) : Complex := s.cells.get ⟨i * n + j, offset_lt i.isLt j.isLt⟩

def set (s : Square n) (i j : Fin n) (z : Complex) : Square n :=
  ⟨s.cells.set (i * n + j) z (offset_lt i.isLt j.isLt)⟩

def ofMatrix (m : Matrix) : Square m.rows :=
  ⟨Vector.ofFn fun k => m.cell (k / m.rows) (k % m.rows)⟩

/-- The square without its last row and column. -/
def leading (s : Square (n + 1)) : Square n :=
  ⟨Vector.ofFn fun k =>
    have n_pos : 0 < n := Nat.pos_of_mul_pos_right (Nat.zero_lt_of_lt k.isLt)
    s.get ⟨k / n, Nat.lt_succ_of_lt (Nat.div_lt_of_lt_mul k.isLt)⟩
      ⟨k % n, Nat.lt_succ_of_lt (Nat.mod_lt _ n_pos)⟩⟩

/-- Adds to the diagonal by way of `f`. -/
def mapDiagonal (f : Complex → Complex) (s : Square n) : Square n :=
  n.fold (fun k h s => s.set ⟨k, h⟩ ⟨k, h⟩ (f (s.get ⟨k, h⟩ ⟨k, h⟩))) s

/-- A rotation of two rows, given by its cosine and sine. -/
structure Rotation (n : Nat) where
  top : Fin n
  bottom : Fin n
  c : Complex
  s : Complex

/-- The rotation that clears the entry of row `bottom` in column `top`, unless it is zero. -/
def rotation? (a : Square n) (top bottom : Fin n) : Option (Rotation n) :=
  let x := a.get top top
  let y := a.get bottom top
  let r := (x.norm * x.norm + y.norm * y.norm).sqrt
  if r.isZero || y.isZero then none
  else some ⟨top, bottom, x / Complex.ofReal r, y / Complex.ofReal r⟩

/-- Turns the two rows of a rotation. -/
def rotateRows (a : Square n) (g : Rotation n) : Square n :=
  n.fold
    (fun k h a =>
      let x := a.get g.top ⟨k, h⟩
      let y := a.get g.bottom ⟨k, h⟩
      (a.set g.top ⟨k, h⟩ (g.c.conj * x + g.s.conj * y)).set g.bottom ⟨k, h⟩ (g.c * y - g.s * x))
    a

/-- Turns the two columns of a rotation back. -/
def rotateColumns (a : Square n) (g : Rotation n) : Square n :=
  n.fold
    (fun k h a =>
      let x := a.get ⟨k, h⟩ g.top
      let y := a.get ⟨k, h⟩ g.bottom
      (a.set ⟨k, h⟩ g.top (x * g.c + y * g.s)).set ⟨k, h⟩ g.bottom (y * g.c.conj - x * g.s.conj))
    a

/-- Clears everything below the diagonal, and collects the rotations, the last one first. -/
def triangulate (a : Square n) : Square n × List (Rotation n) :=
  n.fold
    (fun col hc state =>
      n.fold
        (fun row hr (a, done) =>
          if row ≤ col then (a, done)
          else
            match a.rotation? ⟨col, hc⟩ ⟨row, hr⟩ with
            | none => (a, done)
            | some g => (a.rotateRows g, g :: done))
        state)
    (a, [])

/-- One step: `A - shift = QR` becomes `RQ + shift`. -/
def qrStep (a : Square n) (shift : Complex) : Square n :=
  let (r, rotations) := (a.mapDiagonal (· - shift)).triangulate
  (rotations.reverse.foldl rotateColumns r).mapDiagonal (· + shift)

/-- The eigenvalue of the last block of two rows that is closer to its last entry. -/
def trailingShift (a : Square (n + 2)) : Complex :=
  let i : Fin (n + 2) := ⟨n, by omega⟩
  let j : Fin (n + 2) := ⟨n + 1, by omega⟩
  let half := Complex.ofReal Double.half
  let mean := (a.get i i + a.get j j) * half
  let gap := (a.get i i - a.get j j) * half
  let root := (gap * gap + a.get i j * a.get j i).sqrt
  let first := mean + root
  let second := mean - root
  if (first - a.get j j).norm.le (second - a.get j j).norm then first else second

/-- What is left of the last row before the diagonal. -/
def residue (a : Square (n + 1)) : Double :=
  n.fold
    (fun c h sum => sum + (a.get ⟨n, by omega⟩ ⟨c, by omega⟩).norm)
    Double.negativeZero

/-- Sweeps for one eigenvalue. -/
def sweepLimit : Nat := 300

/-- Sweeps from one unusual shift to the next, which gets a stuck iteration going. -/
def unusualEvery : Nat := 11

/-- The shift of the sweep with this number. -/
def shiftFor (a : Square (n + 2)) (sweep : Nat) : Complex :=
  let last : Fin (n + 2) := ⟨n + 1, by omega⟩
  if sweep % unusualEvery = 0 then a.get last last + Complex.ofReal a.residue else a.trailingShift

/-- Sweeps until the last row has vanished before its diagonal. -/
def settle (tolerance : Double) : Nat → Square (n + 2) → Option (Square (n + 2))
  | 0, a => if a.residue.le tolerance then some a else none
  | left + 1, a =>
    if a.residue.le tolerance then some a
    else settle tolerance left (a.qrStep (a.shiftFor (sweepLimit - left)))

/-- The eigenvalues, the last row's first. -/
def eigenvalues? (tolerance : Double) : {n : Nat} → Square n → Option (List Complex)
  | 0, _ => some []
  | 1, a => some [a.get 0 0]
  | n + 2, a => do
    let a ← settle tolerance sweepLimit a
    let rest ← eigenvalues? tolerance a.leading
    return a.get ⟨n + 1, by omega⟩ ⟨n + 1, by omega⟩ :: rest

end Square

namespace Matrix

/-- Drops an imaginary part that is within the tolerance. -/
def dropNoise (tolerance : Double) (z : Complex) : Complex :=
  if z.im.abs.le (tolerance * Double.ofNat 8) then Complex.ofReal z.re else z

/-- The eigenvalues by real part, then by imaginary part. -/
def eigenvalues (m : Matrix) : Result (List Complex) := do
  m.requireSquare "eig"
  let tolerance := Double.epsilon * m.norm.max Double.leastNormal
  match (Square.ofMatrix m).eigenvalues? tolerance with
  | none => throw (.argumentValue "the eigenvalue iteration did not converge")
  | some values =>
    return (values.map (dropNoise tolerance)).mergeSort fun z w => z.totalCompare w != .gt

end Matrix

/-! ### Eigenvectors -/

namespace Matrix

/-- A column of numbers. -/
abbrev Column := Array Complex

def entry (x : Column) (i : Nat) : Complex := x.getD i Complex.zero

/-- Elimination on a system with its right-hand side. -/
structure System where
  work : Matrix
  rhs : Column

/-- The first row, from `col` on, whose entry in the column is larger than all before. -/
def firstPivot (m : Matrix) (col : Nat) : Nat :=
  foldBetween (col + 1) m.rows
    (fun r best => if (m.cell best col).norm.lt (m.cell r col).norm then r else best) col

/-- Clears a column below the diagonal; a pivot that all but vanishes is lifted to `least`. -/
def System.eliminate (least : Double) (col : Nat) (s : System) : System :=
  let pivot := s.work.firstPivot col
  let swapped := s.work.swapRows pivot col
  let rhs := s.rhs.swapIfInBounds pivot col
  let work :=
    if (swapped.cell col col).norm.lt least then swapped.setCell col col (Complex.ofReal least)
    else swapped
  let p := work.cell col col
  foldBetween (col + 1) work.rows
    (fun r s =>
      let factor := s.work.cell r col / p
      if factor.isZero then s
      else
        ⟨s.work.subtractRow r col factor col,
          s.rhs.setIfInBounds r (entry s.rhs r - factor * entry s.rhs col)⟩)
    ⟨work, rhs⟩

/-- Solves a triangular system from its last row up. -/
def System.backSubstitute (s : System) : Column :=
  s.work.rows.fold
    (fun k _ x =>
      let row := s.work.rows - 1 - k
      let tail :=
        foldBetween (row + 1) s.work.rows
          (fun c sum => sum + s.work.cell row c * entry x c) Complex.zero
      x.setIfInBounds row ((entry x row - tail) / s.work.cell row row))
    s.rhs

/-- The solution of `(m - shift) x = rhs`. -/
def solveShifted (m : Matrix) (shift : Complex) (rhs : Column) (least : Double) : Column :=
  let shifted := m.rows.fold (fun k _ m => m.setCell k k (m.cell k k - shift)) m
  (m.rows.fold (fun col _ s => s.eliminate least col) (⟨shifted, rhs⟩ : System)).backSubstitute

/-- The product of two columns, the first one conjugated. -/
def dot (x y : Column) : Complex :=
  (x.zip y).foldl (fun sum (z, w) => sum + z.conj * w) Complex.zero

/-- Gives a column the length one, if it has a length. -/
def normalize (x : Column) : Column :=
  let length :=
    (x.foldl (fun sum z => sum + z.norm * z.norm) Double.negativeZero).sqrt
  if Double.zero.lt length && length.isFinite then
    x.map (· * Complex.ofReal (Double.one / length))
  else x

/-- Takes the part along `y` out of `x`. -/
def reject (x y : Column) : Column :=
  let overlap := dot y x
  Array.zipWith (fun z w => z - overlap * w) x y

/-- The start of the iteration for the vector with number `k`. -/
def firstGuess (n k : Nat) : Column :=
  Array.ofFn fun j : Fin n => Complex.ofReal (if j = k then Double.two else Double.one)

/-- Rounds of the iteration for each vector. -/
def refinementRounds : Nat := 3

/-- One round of the iteration. -/
def refine (m : Matrix) (value : Complex) (least : Double) (found : List (Complex × Column))
    (x : Column) : Column :=
  let solved := m.solveShifted value x least
  let repeated := found.filter fun (z, _) => (z - value).norm.le (least * Double.ofNat 10000)
  normalize (repeated.foldl (fun x (_, y) => reject x y) solved)

/-- The vectors of the values that are left, in order. -/
def eigencolumns (m : Matrix) (least : Double) :
    List Complex → List (Complex × Column) → List (Complex × Column)
  | [], found => found
  | value :: values, found =>
    let guess := firstGuess m.rows found.length
    let x := Nat.repeat (refine m value least found) refinementRounds guess
    eigencolumns m least values (found ++ [(value, x)])

/-- The eigenvectors of the given eigenvalues as columns of length one. -/
def eigenvectors (m : Matrix) (values : List Complex) : Result Matrix := do
  m.requireSquare "ev"
  let least := Double.epsilon * m.norm.max Double.one
  let columns := ((m.eigencolumns least values []).map (·.2)).toArray
  ofCells m.rows columns.size fun r c => entry (columns.getD c #[]) r

end Matrix

end MatrixScript
