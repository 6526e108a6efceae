import MatrixScript.Decimal.Basic
import MatrixScript.Double.Basic

/-!
# Significant digits
-/

namespace MatrixScript

/-- The double nearest to `x` with that many significant decimal digits; a half goes to the even
last digit. What is not finite stays as it is. -/
def Double.withDigits (digits : Nat) (x : Double) : Double :=
  if !x.isFinite || x.isZero then x
  else
    let num := x.significand <<< x.exponent.toNat
    let den := 1 <<< (-x.exponent).toNat
    let unit := Decimal.leadingExponent num den - digits + 1
    let up := Nat.pow 10 unit.toNat
    let down := Nat.pow 10 (-unit).toNat
    let rounded := roundedQuotient (num * down) (den * up)
    (ofDecimal rounded unit).withSignOf x

end MatrixScript
