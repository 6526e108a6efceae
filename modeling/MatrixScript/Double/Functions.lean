import MatrixScript.Double.Basic

/-!
# Real functions

The elementary functions are the machine's. The length of a vector is the double nearest to the root
of the exact sum of squares, so no square over- or underflows on the way.
-/

namespace MatrixScript

/-- Newton's iteration toward the integer square root, from a start that is not below it. -/
def squareRootFrom : Nat → Nat → Nat → Nat
  | 0, _, guess => guess
  | fuel + 1, n, guess =>
    let better := (guess + n / guess) / 2
    if better < guess then squareRootFrom fuel n better else guess

/-- The largest number whose square does not exceed `n`. -/
def squareRoot (n : Nat) : Nat :=
  if n = 0 then 0 else squareRootFrom n.log2.succ n (1 <<< (n.log2 / 2 + 1))

namespace Double

def exp : Double → Double := lift Float.exp
def ln : Double → Double := lift Float.log
def log10 : Double → Double := lift Float.log10
def sin : Double → Double := lift Float.sin
def cos : Double → Double := lift Float.cos
def tan : Double → Double := lift Float.tan
def sinh : Double → Double := lift Float.sinh
def cosh : Double → Double := lift Float.cosh

/-- The angle of the point `(x, y)`. Of two NaNs, `x` is handed on. -/
def atan2 (y x : Double) : Double := lift₂ (fun x y => Float.atan2 y x) x y

/-- The power of a base. One to any power and anything to the power zero are one, also for a NaN
that does not signal. Another NaN that is the base is handed on; an odd power of it is positive. -/
def pow (x y : Double) : Double :=
  if y.isZero then (if x.isSignaling then x.quiet else one)
  else if x.bits == one.bits then (if y.isSignaling then y.quiet else one)
  else if x.isNaN && y.isOdd then x.quiet.abs
  else lift₂ Float.pow x y

/-- The root of a square sum `n · 2 ^ (2 k)`, rounded to the nearest double. The integer root keeps
more places than a double has; one further bit says whether anything was cut off. -/
def rootOfScaled (n : Nat) (k : Int) : Double :=
  if n = 0 then zero
  else
    let lead := (130 - n.log2) / 2
    let m := n <<< (2 * lead)
    let r := squareRoot m
    let sticky := 2 * r + (if r * r = m then 0 else 1)
    let shift := k - lead - 1
    if 0 ≤ shift then ofRatio (sticky <<< shift.toNat) 1 else ofRatio sticky (1 <<< (-shift).toNat)

/-- The length of the vector `(x, y)`. An infinite side decides alone, unless the other one is a
signaling NaN. -/
def hypot (x y : Double) : Double :=
  if (x.isInfinite || y.isInfinite) && !x.isSignaling && !y.isSignaling then infinity
  else if x.isNaN then x.quiet
  else if y.isNaN then y.quiet
  else
    let k := Min.min x.exponent y.exponent
    let a := x.significand <<< (x.exponent - k).toNat
    let b := y.significand <<< (y.exponent - k).toNat
    rootOfScaled (a * a + b * b) k

end Double

end MatrixScript
