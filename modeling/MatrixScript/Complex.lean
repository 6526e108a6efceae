import MatrixScript.Decimal.Basic
import MatrixScript.Double.Functions

/-!
# Complex numbers

Every number of the language is complex; a real one has imaginary part zero. Operations on real
numbers stay with the real parts, so that real input gives exactly the real result.
-/

namespace MatrixScript

structure Complex where
  re : Double
  im : Double
deriving DecidableEq, Inhabited

namespace Complex

def ofReal (x : Double) : Complex := ⟨x, Double.zero⟩

def zero : Complex := ofReal Double.zero
def one : Complex := ofReal Double.one
def i : Complex := ⟨Double.zero, Double.one⟩

def ofNat (n : Nat) : Complex := ofReal (Double.ofNat n)

def isReal (z : Complex) : Bool := z.im.isZero

def isZero (z : Complex) : Bool := z.re.isZero && z.im.isZero

def isNaN (z : Complex) : Bool := z.re.isNaN || z.im.isNaN

/-- Real and whole, as an index or an operand of the factorial has to be. -/
def isInteger (z : Complex) : Bool := z.isReal && z.re.isWhole

/-- Equality of numbers, part by part. -/
def eq (z w : Complex) : Bool := z.re.eq w.re && z.im.eq w.im

/-- The total order by real part, then by imaginary part. -/
def totalCompare (z w : Complex) : Ordering :=
  (z.re.totalCompare w.re).then (z.im.totalCompare w.im)

/-! ### Arithmetic -/

protected def add (z w : Complex) : Complex := ⟨z.re + w.re, z.im + w.im⟩

protected def sub (z w : Complex) : Complex := ⟨z.re - w.re, z.im - w.im⟩

protected def mul (z w : Complex) : Complex :=
  if z.isReal && w.isReal then ofReal (z.re * w.re)
  else ⟨z.re * w.re - z.im * w.im, z.re * w.im + z.im * w.re⟩

/-- Dividing by zero gives infinities and NaNs, as the division of doubles does. -/
protected def div (z w : Complex) : Complex :=
  if w.isReal then
    if z.isReal then ofReal (z.re / w.re) else ⟨z.re / w.re, z.im / w.re⟩
  else
    let d := w.re * w.re + w.im * w.im
    ⟨(z.re * w.re + z.im * w.im) / d, (z.im * w.re - z.re * w.im) / d⟩

protected def neg (z : Complex) : Complex := ⟨-z.re, -z.im⟩

instance : Add Complex := ⟨Complex.add⟩
instance : Sub Complex := ⟨Complex.sub⟩
instance : Mul Complex := ⟨Complex.mul⟩
instance : Div Complex := ⟨Complex.div⟩
instance : Neg Complex := ⟨Complex.neg⟩

def conj (z : Complex) : Complex := ⟨z.re, -z.im⟩

/-- The modulus. -/
def norm (z : Complex) : Double := if z.isReal then z.re.abs else Double.hypot z.re z.im

def arg (z : Complex) : Double := Double.atan2 z.im z.re

/-! ### Functions -/

def exp (z : Complex) : Complex :=
  if z.isReal then ofReal z.re.exp
  else
    let r := z.re.exp
    ⟨r * z.im.cos, r * z.im.sin⟩

/-- The principal logarithm. -/
def ln (z : Complex) : Complex :=
  if z.isReal && Double.zero.le z.re then ofReal z.re.ln else ⟨z.norm.ln, z.arg⟩

/-- The principal logarithm to the base ten. -/
def log10 (z : Complex) : Complex :=
  if z.isReal && Double.zero.lt z.re then ofReal z.re.log10 else z.ln / ofReal Double.lnTen

/-- The principal square root. -/
def sqrt (z : Complex) : Complex :=
  if z.isReal then
    if Double.zero.le z.re then ofReal z.re.sqrt else ⟨Double.zero, (-z.re).sqrt⟩
  else
    let r := z.norm.sqrt
    let θ := z.arg / Double.two
    ⟨r * θ.cos, r * θ.sin⟩

def sin (z : Complex) : Complex :=
  if z.isReal then ofReal z.re.sin else ⟨z.re.sin * z.im.cosh, z.re.cos * z.im.sinh⟩

def cos (z : Complex) : Complex :=
  if z.isReal then ofReal z.re.cos else ⟨z.re.cos * z.im.cosh, -(z.re.sin * z.im.sinh)⟩

def tan (z : Complex) : Complex := if z.isReal then ofReal z.re.tan else z.sin / z.cos

def cot (z : Complex) : Complex := one / z.tan

/-- Applies `f` to both parts. -/
def mapParts (f : Double → Double) (z : Complex) : Complex := ⟨f z.re, f z.im⟩

/-- The power of a base. Real bases and exponents with a real power stay real; zero to a complex
power is decided by the sign of the exponent's real part. -/
def pow (z w : Complex) : Complex :=
  if z.isReal && w.isReal && (Double.zero.le z.re || w.re.isWhole) then
    ofReal (z.re.pow w.re)
  else if z.isZero then
    if w.isZero then one
    else if Double.zero.lt w.re then zero
    else ofReal Double.infinity
  else (w * z.ln).exp

/-! ### Text -/

/-- A number as it is written: `3`, `-2.5i`, `1+i`. A part that is zero is left out, except that
zero itself is written `0`. -/
def text (z : Complex) : String :=
  if z.im.isZero then z.re.text
  else
    let below := z.im.lt Double.zero
    let size := if z.im.abs.eq Double.one then "" else z.im.abs.text
    if z.re.isZero then (if below then "-" else "") ++ size ++ "i"
    else z.re.text ++ (if below then "-" else "+") ++ size ++ "i"

end Complex

end MatrixScript
