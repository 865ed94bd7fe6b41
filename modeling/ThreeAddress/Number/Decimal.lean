import ThreeAddress.Number.Double

/-! The shortest decimal text of a floating point number. Digits are chosen by exact
arithmetic: among the decimals that read back to the number, one with the fewest digits, and
of those the nearest.
-/

namespace ThreeAddress

/-- A decimal `0.d₁d₂… * 10 ^ (exponent + 1)`: its digits, the first not zero, and the power
of ten of the first digit.
-/
structure Decimal where
  digits : List Char
  exponent : Int
deriving DecidableEq, Repr

/-- Which of two equally near decimals is taken: the one with an even last digit, or the
greater one.
-/
inductive TieRule where
  | toEven
  | up
deriving DecidableEq, Repr

/-- The reals that round to a positive number, all in the same small unit: the number itself
and the midpoints to its neighbours, which belong to it when its significand is even.
-/
structure RoundingInterval where
  low : Nat
  value : Nat
  high : Nat
  closed : Bool
deriving Repr

namespace RoundingInterval

/-- The interval of a positive finite number, in units of `2 ^ -1076`. Below a power of two
the lower neighbour is half as far away.
-/
def ofDouble (x : Double) : RoundingInterval :=
  let m := x.significand
  let gap := if x.fractionField = 0 ∧ 1 < x.exponentField then 1 else 2
  { low := (4 * m - gap) <<< x.shift
    value := (4 * m) <<< x.shift
    high := (4 * m + 2) <<< x.shift
    closed := m % 2 = 0 }

/-- The interval with all its bounds multiplied. -/
def scale (interval : RoundingInterval) (factor : Nat) : RoundingInterval :=
  { interval with
    low := interval.low * factor
    value := interval.value * factor
    high := interval.high * factor }

/-- The point lies in the interval. -/
def holds (interval : RoundingInterval) (point : Nat) : Bool :=
  if interval.closed then interval.low ≤ point && point ≤ interval.high
  else interval.low < point && point < interval.high

/-- The multiple of the grid width that lies in the interval and is nearest to its value, as
the number of grid steps. Only the two neighbours of the value on the grid can be it.
-/
def nearestOn (interval : RoundingInterval) (tie : TieRule) (width : Nat) : Option Nat :=
  let below := interval.value / width
  match interval.holds (below * width), interval.holds ((below + 1) * width) with
  | false, false => none
  | true, false => some below
  | false, true => some (below + 1)
  | true, true =>
    match compare (2 * interval.value) ((2 * below + 1) * width), tie with
    | .lt, _ => some below
    | .gt, _ => some (below + 1)
    | .eq, .toEven => some (below + below % 2)
    | .eq, .up => some (below + 1)

end RoundingInterval

/-- The decimal digits of a natural number, most significant first. -/
def decimalDigits (n : Nat) : List Char :=
  Nat.toDigits 10 n

/-- The same digits without zeros at the end. -/
def withoutTrailingZeros (digits : List Char) : List Char :=
  (digits.reverse.dropWhile (· == '0')).reverse

/-- How many decimal places the search for digits shifts a number up, so that seventeen
digits of the smallest positive number stand before the point.
-/
def searchPlaces : Nat := 340

/-- The shortest decimal that reads back to a positive finite number. The grids are tried
from the one with a single digit down to the one with seventeen, which always has a point
in the interval.
-/
def Double.shortest (tie : TieRule) (x : Double) : Decimal :=
  let unit := 1 <<< 1076
  let interval := (RoundingInterval.ofDouble x).scale (Nat.pow 10 searchPlaces)
  let places := (decimalDigits (interval.value / unit)).length
  let candidate (count : Nat) : Option (Nat × Nat) :=
    let power := places - count
    (interval.nearestOn tie (Nat.pow 10 power * unit)).map fun steps => (steps, power)
  let (steps, power) := ((List.range' 1 17).findSome? candidate).getD (0, 0)
  let digits := decimalDigits steps
  { digits := withoutTrailingZeros digits
    exponent := (digits.length + power : Int) - 1 - searchPlaces }

/-- How a format writes floating point numbers. -/
structure FloatStyle where
  /-- Which of two equally near decimals is written. -/
  tie : TieRule
  /-- The least power of ten whose numbers are written without an exponent. -/
  lowest : Int
  /-- The greatest power of ten whose numbers are written without an exponent. -/
  highest : Int
  /-- A positive exponent is written with its sign. -/
  plusSign : Bool

namespace FloatStyle

/-- Writes a decimal without exponent, with at least one digit after the point. -/
def positional (decimal : Decimal) : List Char :=
  if decimal.exponent < 0 then
    '0' :: '.' :: (List.replicate (decimal.exponent.natAbs - 1) '0' ++ decimal.digits)
  else
    let count := decimal.exponent.natAbs + 1
    let whole := decimal.digits.take count
    let fraction := decimal.digits.drop count
    whole ++ List.replicate (count - whole.length) '0' ++ '.' ::
      (if fraction.isEmpty then ['0'] else fraction)

/-- Writes a decimal with one digit before the point and an exponent. -/
def scientific (style : FloatStyle) (decimal : Decimal) : List Char :=
  let fraction := decimal.digits.drop 1
  let sign := if decimal.exponent < 0 then ['-'] else if style.plusSign then ['+'] else []
  decimal.digits.take 1 ++ (if fraction.isEmpty then [] else '.' :: fraction)
    ++ 'e' :: (sign ++ decimalDigits decimal.exponent.natAbs)

/-- Writes the magnitude of a finite number. -/
def magnitude (style : FloatStyle) (x : Double) : List Char :=
  if x.isZero then ['0', '.', '0']
  else
    let decimal := x.shortest style.tie
    if style.lowest ≤ decimal.exponent ∧ decimal.exponent ≤ style.highest
    then positional decimal
    else style.scientific decimal

/-- Writes a number: a sign when it has one, then its magnitude. -/
def render (style : FloatStyle) (x : Double) : String :=
  if x.isNaN then "NaN"
  else
    let magnitude := if x.isInfinite then ['i', 'n', 'f'] else style.magnitude x
    String.ofList (if x.isNegative then '-' :: magnitude else magnitude)

end FloatStyle

end ThreeAddress
