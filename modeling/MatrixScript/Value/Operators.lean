import MatrixScript.Matrix.Elimination
import MatrixScript.Value.Basic

/-!
# Operators on values

Two scalars always have a result. A text can be compared with a text and joined to anything. Sets
have a union and an intersection. All other numeric operands are scalars or matrices: with a scalar
an operator works element by element, between matrices the arithmetic is that of linear algebra.
Every other pair of operands is refused.
-/

namespace MatrixScript

/-- A numeric operand; what can be a scalar is one. -/
inductive Numeric where
  | scalar (z : Complex)
  | matrix (m : Matrix)

def Numeric.ofMatrix (m : Matrix) : Numeric :=
  match m.scalar? with
  | some z => scalar z
  | none => matrix m

def Value.numeric? (v : Value) : Option Numeric := v.matrix?.map Numeric.ofMatrix

namespace Complex

def ofBool (b : Bool) : Complex := if b then one else zero

/-- Equality as `==` decides it: imaginary parts count only where both numbers have one. -/
def equals (z w : Complex) : Bool :=
  if !z.im.isZero && !w.im.isZero then z.re.eq w.re && z.im.eq w.im else z.re.eq w.re

/-- The factorial of a whole number that is not negative; past `170!` it is infinite. -/
def factorial (z : Complex) : Result Complex :=
  if !z.isInteger || z.re.lt Double.zero then
    .error (.argumentValue ("factorial is only defined for non-negative integers, got " ++ z.text))
  else if Double.ofNat 171 |>.le z.re then .ok (ofReal Double.infinity)
  else .ok <| ofReal <|
    foldBetween 2 (z.re.toCount + 1) (fun k product => product * Double.ofNat k) Double.one

end Complex

/-- The operators on scalars. Order goes by the real parts. -/
def BinaryOp.onScalars (op : BinaryOp) (z w : Complex) : Complex :=
  match op with
  | add => z + w
  | sub => z - w
  | mul | elemMul => z * w
  | div | elemDiv => z / w
  | leftDiv => w / z
  | pow | elemPow => z.pow w
  | eq => .ofBool (z.equals w)
  | notEq => .ofBool (!z.equals w)
  | lt => .ofBool (z.re.lt w.re)
  | ltEq => .ofBool (z.re.le w.re)
  | gt => .ofBool (w.re.lt z.re)
  | gtEq => .ofBool (w.re.le z.re)
  | and => .ofBool (!z.re.isZero && !w.re.isZero)
  | or => .ofBool (!z.re.isZero || !w.re.isZero)

namespace Value

def matrixWithScalar (op : BinaryOp) (m : Matrix) (z : Complex) : Result Value :=
  match op with
  | .pow =>
    if z.isInteger then matrix <$> m.pow z.re.toInt64
    else .error (.unsupported "^" .matrix (some .scalar))
  | .leftDiv => do return matrix ((← m.inverse).map (· * z))
  | _ => .ok (matrix (m.map (op.onScalars · z)))

def matrixWithMatrix (op : BinaryOp) (m n : Matrix) : Result Value :=
  match op with
  | .mul => matrix <$> m.mul n
  | .div => do return matrix (← m.mul (← n.inverse))
  | .leftDiv => do return matrix (← (← m.inverse).mul n)
  | .pow => .error (.unsupported op.symbol .matrix (some .matrix))
  | _ => matrix <$> m.zipWith n op.symbol op.onScalars

def numericBinary (op : BinaryOp) : Numeric → Numeric → Result Value
  | .scalar z, .scalar w => .ok (scalar (op.onScalars z w))
  | .matrix m, .scalar w => matrixWithScalar op m w
  | .scalar z, .matrix n => .ok (matrix (n.map (op.onScalars z ·)))
  | .matrix m, .matrix n => matrixWithMatrix op m n

def textBinary (op : BinaryOp) (left right : Value) : Result Value :=
  match op, left.text?, right.text? with
  | .add, _, _ => .ok (text (left.display ++ right.display))
  | .eq, some s, some t => .ok (ofBool (s == t))
  | .notEq, some s, some t => .ok (ofBool (s != t))
  | .lt, some s, some t => .ok (ofBool (decide (s < t)))
  | .ltEq, some s, some t => .ok (ofBool (!decide (t < s)))
  | .gt, some s, some t => .ok (ofBool (decide (t < s)))
  | .gtEq, some s, some t => .ok (ofBool (!decide (s < t)))
  | _, _, _ => .error (.unsupported op.symbol left.kind (some right.kind))

def setBinary (op : BinaryOp) (s t : ElementSet) : Result Value :=
  match op with
  | .add => .ok (set (s.union t))
  | .mul => .ok (set (s.intersect t))
  | .eq => .ok (ofBool (s.eq t))
  | .notEq => .ok (ofBool (!s.eq t))
  | _ => .error (.unsupported op.symbol .set (some .set))

/-- The value of a binary operator. -/
def binary (op : BinaryOp) (left right : Value) : Result Value :=
  match left, right with
  | scalar z, scalar w => .ok (scalar (op.onScalars z w))
  | text _, _ | _, text _ => textBinary op left right
  | set s, set t => setBinary op s t
  | _, _ =>
    match left.numeric?, right.numeric? with
    | some m, some n => numericBinary op m n
    | _, _ => .error (.unsupported op.symbol left.kind (some right.kind))

/-! ### Unary operators -/

def mapNumeric (f : Complex → Complex) : Numeric → Value
  | .scalar z => scalar (f z)
  | .matrix m => matrix (m.map f)

/-- `|x|`: the length of a text, the size of a set, the modulus of a scalar, the determinant of a
square matrix and the norm of any other. -/
def size? : Value → Option Value
  | text s => some (ofNat s.length)
  | set s => some (ofNat s.size)
  | v =>
    match v.numeric? with
    | none => none
    | some (.scalar z) => some (real z.norm)
    | some (.matrix m) =>
      if m.isVector || !m.isSquare then some (real m.norm) else m.det.toOption.map scalar

def factorial : Numeric → Result Value
  | .scalar z => scalar <$> z.factorial
  | .matrix m => do
    let data ← m.data.toList.mapM Complex.factorial
    matrix <$> Matrix.ofData m.rows m.cols data.toArray

/-- The value of a unary operator. -/
def unary (op : UnaryOp) (v : Value) : Result Value :=
  let refused : Fault := .unsupported op.symbol v.kind none
  match op with
  | .abs => v.size?.elim (.error refused) .ok
  | .plus =>
    match v with
    | scalar _ | matrix _ | range _ => .ok v
    | _ => .error refused
  | .factorial => v.numeric?.elim (.error refused) factorial
  | .neg => v.numeric?.elim (.error refused) (.ok <| mapNumeric (- ·) ·)
  | .not => v.numeric?.elim (.error refused) (.ok <| mapNumeric (fun z => .ofBool z.re.isZero) ·)
  | .transpose =>
    match v.numeric? with
    | none => .error refused
    | some (.scalar z) => .ok (scalar z.conj)
    | some (.matrix m) => .ok (matrix m.adjoint)

/-! ### Ranges -/

/-- A bound of a range, next to the other one. -/
def rangeBound (v : Value) (other : Option Value) : Result Double :=
  match v.scalar? with
  | some z =>
    if z.isReal then .ok z.re
    else .error (.argumentValue ("range bounds must be real, got " ++ z.text))
  | none => .error (.unsupported ":" v.kind (some ((other.map kind).getD .scalar)))

/-- Start, and step if there is one, from the left of a colon. A range gives its end as the step. -/
def rangeStart (left : Value) (right : Option Value) : Result (Double × Option Double) :=
  match left with
  | range ⟨start, _, .at stop⟩ => .ok (start, some stop)
  | range ⟨_, _, .open⟩ => .error (.argumentValue "an open range cannot start another range")
  | v => do return (← v.rangeBound right, none)

/-- The range of two operands of a colon, the second one missing where the end is open. A range on
the right gives its start as the step, so `a:(b:c)` is `a:b:c`. Without a step, an end below the
start is reached by steps of minus one. -/
def makeRange (left : Value) (right : Option Value) : Result Value := do
  let (start, step) ← left.rangeStart right
  let (stop, step) ←
    match right with
    | none => pure (Bound.open, step)
    | some (range r) => pure (r.stop, some r.start)
    | some v => do pure (Bound.at (← v.rangeBound (some left)), step)
  let natural :=
    match stop with
    | .at e => if e.lt start then -Double.one else Double.one
    | .open => Double.one
  range <$> Progression.make start (step.getD natural) stop

end Value

end MatrixScript
