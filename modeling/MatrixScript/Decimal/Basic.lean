import MatrixScript.Double.Basic

/-!
# Decimals

How doubles are read from decimals and written as decimals.

A decimal is digits, an optional fraction and an optional exponent. It stands for a whole number of
units `10 ^ k`, and is read as the nearest double to that.

Every double is the rounding of an interval of reals, whose ends belong to it when the significand
is even. The shortest decimal is the one with the fewest digits in that interval; among several of
them it is the one nearest to the double, and of two equally near ones the larger.

The search is on fractions of natural numbers. A grid of decimals with a given spacing has a point
in an interval around `v` only if one of the two grid points next to `v` lies in it, so testing
those two for ever finer grids is enough.
-/

namespace MatrixScript

/-! ### Reading -/

namespace Decimal

def digitValue (c : Char) : Nat := c.toNat - '0'.toNat

/-- The number that a run of digits writes. -/
def naturalOf (ds : List Char) : Nat := ds.foldl (fun n c => 10 * n + digitValue c) 0

/-- The parts of a decimal: the digits before and after the point, and the exponent. -/
structure Parts where
  whole : List Char
  fraction : List Char
  exponent : Int

/-- An exponent with its sign, as it follows the letter `e`. -/
def exponentOf : List Char → Int
  | '-' :: ds => -(naturalOf ds : Int)
  | '+' :: ds => naturalOf ds
  | ds => naturalOf ds

/-- Splits a decimal at its point and its exponent letter. -/
def Parts.ofText (cs : List Char) : Parts :=
  let isLetter (c : Char) : Bool := c = 'e' || c = 'E'
  let mantissa := cs.takeWhile (!isLetter ·)
  let power := cs.dropWhile (!isLetter ·)
  ⟨mantissa.takeWhile (· ≠ '.'), (mantissa.dropWhile (· ≠ '.')).drop 1, exponentOf (power.drop 1)⟩

/-- The nearest double to a written decimal. -/
def toDouble (cs : List Char) : Double :=
  let p := Parts.ofText cs
  Double.ofDecimal (naturalOf (p.whole ++ p.fraction)) (p.exponent - p.fraction.length)

end Decimal

/-- Reads a decimal with its sign, or the name of what is not finite. -/
def Double.ofText? (s : String) : Option Double :=
  match s.toList with
  | '-' :: cs => (magnitude? cs).map (- ·)
  | cs => magnitude? cs
where
  magnitude? (cs : List Char) : Option Double :=
    if cs = "inf".toList then some infinity
    else if cs = "NaN".toList then some nan
    else if cs.isEmpty then none
    else some (Decimal.toDouble cs)

/-! ### Writing -/

namespace Decimal

/-- An interval around a fraction, all three over one denominator. -/
structure Interval where
  low : Nat
  value : Nat
  high : Nat
  den : Nat
  closed : Bool

/-- The reals that round to a positive finite double. Below a power of two the doubles lie twice as
close, except at the least exponent. -/
def Interval.ofDouble (x : Double) : Interval :=
  let m := x.significand
  let q := x.exponent
  let narrow := m = 4503599627370496 && -1074 < q
  let low := if narrow then 4 * m - 1 else 4 * m - 2
  let shift := q - 2
  let scale (n : Nat) : Nat := if 0 ≤ shift then n <<< shift.toNat else n
  let den := if 0 ≤ shift then 1 else 1 <<< (-shift).toNat
  ⟨scale low, scale (4 * m), scale (4 * m + 2), den, m % 2 = 0⟩

/-- Whether `n / d` lies in the interval. -/
def Interval.contains (i : Interval) (n d : Nat) : Bool :=
  if i.closed then i.low * d ≤ n * i.den && n * i.den ≤ i.high * d
  else i.low * d < n * i.den && n * i.den < i.high * d

/-- The number of decimal digits. -/
def digitCount (n : Nat) : Nat :=
  if n < 10 then 1 else digitCount (n / 10) + 1

/-- How many times a fraction below one must be multiplied by ten to reach one. -/
def tensBelowOne : Nat → Nat → Nat → Nat
  | 0, _, _ => 0
  | fuel + 1, num, den => if den ≤ num then 0 else tensBelowOne fuel (num * 10) den + 1

/-- The power of ten of a fraction's first digit. -/
def leadingExponent (num den : Nat) : Int :=
  if den ≤ num then digitCount (num / den) - 1 else -(tensBelowOne 400 num den : Int)

/-- The grid point of spacing `10 ^ unit` that stands for the interval, if there is one. -/
def onGrid? (i : Interval) (unit : Int) : Option Nat :=
  let up := Nat.pow 10 unit.toNat
  let down := Nat.pow 10 (-unit).toNat
  let num := i.value * down
  let den := i.den * up
  let below := num / den
  let fits (k : Nat) := i.contains (k * up) down
  match fits below, fits (below + 1) with
  | true, true => if 2 * (num % den) < den then some below else some (below + 1)
  | true, false => some below
  | false, true => some (below + 1)
  | false, false => none

/-- Tries ever finer grids. -/
def search (i : Interval) : Nat → Int → Nat × Int
  | 0, unit => (i.value / i.den, unit)
  | fuel + 1, unit =>
    match onGrid? i unit with
    | some k => (k, unit)
    | none => search i fuel (unit - 1)

/-- The digits and the power of ten of their unit, for a positive finite double. The first grid has
its first point above the double, at the next power of ten. -/
def shortest (x : Double) : Nat × Int :=
  let i := Interval.ofDouble x
  search i 20 (leadingExponent i.value i.den + 1)

/-- Digits in positional notation: `digits · 10 ^ unit`, without an exponent. -/
def positional (digits : Nat) (unit : Int) : List Char :=
  let ds := Nat.toDigits 10 digits
  if 0 ≤ unit then ds ++ List.replicate unit.toNat '0'
  else
    let places := (-unit).toNat
    if places < ds.length then ds.take (ds.length - places) ++ '.' :: ds.drop (ds.length - places)
    else '0' :: '.' :: (List.replicate (places - ds.length) '0' ++ ds)

end Decimal

namespace Double

/-- The shortest positional decimal. Both zeros are written `0`, a NaN without sign. -/
def text (x : Double) : String :=
  if x.isNaN then "NaN"
  else
    let sign := if x.isNegative && !x.isZero then "-" else ""
    if x.isInfinite then sign ++ "inf"
    else if x.isZero then "0"
    else
      let (digits, unit) := Decimal.shortest x
      sign ++ String.ofList (Decimal.positional digits unit)

/-- The same with the sign of a negative zero. -/
def signedText (x : Double) : String := if x = negativeZero then "-0" else x.text

end Double

end MatrixScript
