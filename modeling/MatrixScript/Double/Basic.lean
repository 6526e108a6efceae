/-!
# Doubles

A double is kept as its 64 bits. That way two numbers are equal exactly when they are the same
double: the zeros differ, and so do the many NaNs, whose sign and payload show up when values are
sorted or saved. Arithmetic goes through the machine's operations and then settles which NaN comes
out: an operand that is a NaN is handed on, the first one first, and a NaN that an operation itself
brings about is the negative quiet one.

Numbers enter the doubles by rounding: a fraction goes to the nearest double, and halfway between
two of them to the one with the even significand. The rounding is done on natural numbers, so it is
exact for every numerator and denominator.
-/

namespace MatrixScript

/-- A double-precision number, given by its bits. -/
structure Double where
  bits : UInt64
deriving DecidableEq, Inhabited

namespace Double

def signBit : UInt64 := 0x8000000000000000

/-- The bits of positive infinity: every larger magnitude is a NaN. -/
def infinityBits : UInt64 := 0x7FF0000000000000

def zero : Double := ⟨0⟩
def one : Double := ⟨0x3FF0000000000000⟩
def two : Double := ⟨0x4000000000000000⟩
def half : Double := ⟨0x3FE0000000000000⟩
def negativeZero : Double := ⟨signBit⟩
def infinity : Double := ⟨infinityBits⟩

/-- The NaN that the name `nan` stands for. -/
def nan : Double := ⟨0x7FF8000000000000⟩

/-- The NaN that an invalid operation yields. -/
def invalid : Double := ⟨0xFFF8000000000000⟩

/-- The gap between one and the next double. -/
def epsilon : Double := ⟨0x3CB0000000000000⟩

/-- The least positive normal double. -/
def leastNormal : Double := ⟨0x0010000000000000⟩

def pi : Double := ⟨0x400921FB54442D18⟩
def e : Double := ⟨0x4005BF0A8B145769⟩

/-- The natural logarithm of ten. -/
def lnTen : Double := ⟨0x40026BB1BBB55516⟩

/-- The bits of the absolute value. -/
def magnitude (x : Double) : UInt64 := x.bits &&& 0x7FFFFFFFFFFFFFFF

def isNegative (x : Double) : Bool := signBit ≤ x.bits

def isNaN (x : Double) : Bool := infinityBits < x.magnitude

def isFinite (x : Double) : Bool := x.magnitude < infinityBits

def isInfinite (x : Double) : Bool := x.magnitude = infinityBits

/-- Either zero. -/
def isZero (x : Double) : Bool := x.magnitude = 0

protected def neg (x : Double) : Double := ⟨x.bits ^^^ signBit⟩

def abs (x : Double) : Double := ⟨x.magnitude⟩

/-- `x` with the sign of `y`. -/
def withSignOf (x y : Double) : Double := ⟨x.magnitude ||| (y.bits &&& signBit)⟩

instance : Neg Double := ⟨Double.neg⟩

/-! ### Comparison -/

/-- The numbers are equal: no NaN is equal to anything, and the zeros are equal. -/
def eq (x y : Double) : Bool :=
  !x.isNaN && !y.isNaN && (x.bits == y.bits || (x.isZero && y.isZero))

/-- A key whose order is the total order of the doubles: negative NaNs first, positive NaNs last,
and the negative zero before the positive one. -/
def orderKey (x : Double) : UInt64 := if x.isNegative then ~~~x.bits else x.bits ||| signBit

/-- The order of numbers; a NaN is neither below nor above anything. -/
def lt (x y : Double) : Bool :=
  !x.isNaN && !y.isNaN && !(x.isZero && y.isZero) && x.orderKey < y.orderKey

def le (x y : Double) : Bool := x.lt y || x.eq y

/-- The total order. -/
def totalCompare (x y : Double) : Ordering := compare x.orderKey y.orderKey

/-! ### Arithmetic -/

def quietBit : UInt64 := 0x0008000000000000

/-- A NaN with its quiet bit set. -/
def quiet (x : Double) : Double := ⟨x.bits ||| quietBit⟩

/-- A NaN whose quiet bit is not set. -/
def isSignaling (x : Double) : Bool := x.isNaN && x.bits &&& quietBit = 0

/-- The result of a machine operation, its NaN being the one of an invalid operation. -/
def ofMachine (x : Float) : Double := if x.isNaN then invalid else ⟨x.toBits⟩

def lift (op : Float → Float) (x : Double) : Double :=
  if x.isNaN then x.quiet else ofMachine (op (Float.ofBits x.bits))

def lift₂ (op : Float → Float → Float) (x y : Double) : Double :=
  if x.isNaN then x.quiet
  else if y.isNaN then y.quiet
  else ofMachine (op (Float.ofBits x.bits) (Float.ofBits y.bits))

instance : Add Double := ⟨lift₂ (· + ·)⟩
instance : Sub Double := ⟨lift₂ (· - ·)⟩
instance : Mul Double := ⟨lift₂ (· * ·)⟩
instance : Div Double := ⟨lift₂ (· / ·)⟩

def sqrt : Double → Double := lift Float.sqrt

/-- The larger number; a NaN gives way to a number. -/
def max (x y : Double) : Double :=
  if x.isNaN then y else if y.isNaN then x else if x.lt y then y else x

/-! ### Whole numbers -/

/-- The number without its fraction. A NaN stays as it is. -/
def trunc (x : Double) : Double :=
  let exponent := x.magnitude >>> 52
  if exponent < 1023 then ⟨x.bits &&& signBit⟩
  else if 1075 ≤ exponent then x
  else ⟨x.bits &&& ~~~(0x000FFFFFFFFFFFFF >>> (exponent - 1023))⟩

def floor (x : Double) : Double :=
  let t := x.trunc
  if x.lt t then t - one else t

def ceil (x : Double) : Double :=
  let t := x.trunc
  if t.lt x then t + one else t

/-- The nearest whole number, a half going away from zero. -/
def round (x : Double) : Double :=
  let t := x.trunc
  if x.isNaN then x.quiet else if half.le (x - t).abs then t + one.withSignOf x else t

/-- Finite and without a fraction. -/
def isWhole (x : Double) : Bool := x.isFinite && x.trunc.eq x

/-! ### Significands -/

/-- A finite magnitude is its significand times two to its exponent. -/
def significand (x : Double) : Nat :=
  let fraction := (x.bits &&& 0x000FFFFFFFFFFFFF).toNat
  if x.magnitude < leastNormal.bits then fraction else fraction + 4503599627370496

def exponent (x : Double) : Int :=
  if x.magnitude < leastNormal.bits then -1074 else (x.magnitude >>> 52).toNat - 1075

/-- Whole and not divisible by two. -/
def isOdd (x : Double) : Bool :=
  x.isWhole && x.exponent ≤ 0 && (x.significand >>> (-x.exponent).toNat) % 2 = 1

/-- The whole part of a nonnegative number, as far as `limit`; nothing else has one. -/
def toNatBelow (limit : Nat) (x : Double) : Nat :=
  if x.isNaN || x.isNegative then 0
  else if !x.isFinite then limit
  else if 0 ≤ x.exponent then min limit (x.significand <<< x.exponent.toNat)
  else min limit (x.significand >>> (-x.exponent).toNat)

/-- The whole part, held within what 64 bits count. -/
def toCount (x : Double) : Nat := x.toNatBelow 18446744073709551615

/-- The whole part, held within signed 64 bits. -/
def toInt64 (x : Double) : Int :=
  if x.isNegative then -(x.abs.toNatBelow 9223372036854775808 : Int)
  else x.toNatBelow 9223372036854775807

end Double

/-! ### The nearest double -/

namespace Double

/-- The quotient rounded to the nearest natural number, a half going to the even one. -/
def roundedQuotient (num den : Nat) : Nat :=
  let q := num / den
  let r := num % den
  if den < 2 * r || (2 * r == den && q % 2 == 1) then q + 1 else q

/-- The fraction `num / den` divided by a power of two, again as a fraction. -/
def scaled (num den : Nat) (exponent : Int) : Nat × Nat :=
  if 0 ≤ exponent then (num, den <<< exponent.toNat) else (num <<< (-exponent).toNat, den)

/-- The power of two to which a fraction is rounded: the one that leaves 53 binary places, or the
least one there is. -/
def unitExponent (num den : Nat) : Int :=
  let guess := Max.max ((num.log2 : Int) - den.log2 - 53) (-1074)
  let (n, d) := scaled num den guess
  if 9007199254740992 ≤ n / d then guess + 1 else guess

/-- The nearest double to `num / den`. -/
def ofRatio (num den : Nat) : Double :=
  if num = 0 then zero
  else
    let unit := unitExponent num den
    let (n, d) := scaled num den unit
    let bits := roundedQuotient n d + (unit + 1074).toNat * 4503599627370496
    if bits < infinityBits.toNat then ⟨UInt64.ofNat bits⟩ else infinity

def ofNat (n : Nat) : Double := ofRatio n 1

/-- The nearest double to `mantissa · 10 ^ exponent`. Beyond the powers of ten that bound the
doubles the answer is known without working it out. -/
def ofDecimal (mantissa : Nat) (exponent : Int) : Double :=
  if mantissa = 0 then zero
  else if 310 < exponent then infinity
  else if exponent + (mantissa.log2 : Int) < -1100 then zero
  else if 0 ≤ exponent then ofRatio (mantissa * Nat.pow 10 exponent.toNat) 1
  else ofRatio mantissa (Nat.pow 10 (-exponent).toNat)

end Double

end MatrixScript
