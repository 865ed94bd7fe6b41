/-! Binary floating point numbers of 64 bits, held as their bits. Every operation is exact
arithmetic on natural numbers followed by one rounding, so nothing depends on hardware.
-/

namespace ThreeAddress

/-- A 64-bit binary floating point number given by its bits: a sign bit, eleven exponent
bits and fifty-two fraction bits. Two numbers are equal here when their bits are, so zero
differs from negative zero and every NaN equals itself.
-/
structure Double where
  bits : UInt64
deriving DecidableEq, Repr

namespace Double

/-- The weight of the sign bit. -/
def signWeight : Nat :=
  1 <<< 63

/-- How many values the fraction bits have. -/
def fractionCount : Nat :=
  1 <<< 52

/-- The sign bit is set. -/
def isNegative (x : Double) : Bool :=
  x.bits.toNat / signWeight == 1

/-- The eleven exponent bits as a number. -/
def exponentField (x : Double) : Nat :=
  x.bits.toNat / fractionCount % 2048

/-- The fifty-two fraction bits as a number. -/
def fractionField (x : Double) : Nat :=
  x.bits.toNat % fractionCount

def isNaN (x : Double) : Bool :=
  x.exponentField == 2047 && x.fractionField != 0

/-- All exponent bits are set and no fraction bit is. -/
def isInfinite (x : Double) : Bool :=
  x.exponentField == 2047 && x.fractionField == 0

/-- Neither infinite nor NaN. -/
def isFinite (x : Double) : Bool :=
  x.exponentField != 2047

/-- Zero of either sign. -/
def isZero (x : Double) : Bool :=
  x.exponentField == 0 && x.fractionField == 0

/-- Equality as a number: the zeros agree with each other and a NaN agrees with nothing. -/
def agrees (x y : Double) : Bool :=
  !x.isNaN && !y.isNaN && (x == y || x.isZero && y.isZero)

/-- The integer significand of a finite number, with its implicit leading bit. -/
def significand (x : Double) : Nat :=
  if x.exponentField = 0 then x.fractionField else x.fractionField + fractionCount

/-- How far the significand is shifted above the smallest positive number's place: the
magnitude of a finite number is `significand * 2 ^ shift / 2 ^ 1074`.
-/
def shift (x : Double) : Nat :=
  x.exponentField - 1

/-- The magnitude of a finite number, as a multiple of the smallest positive number. -/
def units (x : Double) : Nat :=
  x.significand <<< x.shift

/-- The quotient rounded to the nearest integer, a half going to the even neighbour. -/
def divideToEven (numerator denominator : Nat) : Nat :=
  let quotient := numerator / denominator
  let remainder := numerator % denominator
  if 2 * remainder < denominator then quotient
  else if denominator < 2 * remainder then quotient + 1
  else quotient + quotient % 2

/-- Bits of positive infinity, the least magnitude that is no finite number's. -/
def infinityBits : Nat :=
  2047 * fractionCount

/-- The number with the given sign nearest to `numerator / denominator`, ties going to the
even significand and values that round beyond the largest number to infinity. Shift and
significand are added up rather than packed, so a significand that rounds up to the next
power of two carries into the exponent by itself.
-/
def ofRatio (negative : Bool) (numerator denominator : Nat) : Double :=
  let scaled := numerator <<< 1074
  let shift := Nat.log2 (scaled / denominator) - 52
  let magnitude := shift * fractionCount + divideToEven scaled (denominator <<< shift)
  ⟨UInt64.ofNat (min magnitude infinityBits + if negative then signWeight else 0)⟩

/-- The same number with its sign bit set. -/
def negate (x : Double) : Double :=
  ⟨x.bits ||| UInt64.ofNat signWeight⟩

/-- The product of two finite numbers without sign, rounded once. -/
def times (x y : Double) : Double :=
  ofRatio false (x.units * y.units) (1 <<< 2148)

/-- The quotient of two finite numbers without sign, rounded once. -/
def dividedBy (x y : Double) : Double :=
  ofRatio false x.units y.units

/-- The number nearest to a power of ten. -/
def powerOfTen (exponent : Nat) : Double :=
  ofRatio false (Nat.pow 10 exponent) 1

/-- Divides by powers of ten, at most `10 ^ 308` at a time, until the exponent is used up or
nothing is left.
-/
def scaleDown (x : Double) (places : Nat) : Double :=
  if places ≤ 308 then x.dividedBy (powerOfTen places)
  else if x.isZero then x
  else scaleDown (x.dividedBy (powerOfTen 308)) (places - 308)
termination_by places

/-- The number that the decimal `digits * 10 ^ exponent` stands for, or nothing when it is
too large. The digits are rounded first and the scaled result once more.
-/
def ofDecimal? (negative : Bool) (digits : Nat) (exponent : Int) : Option Double :=
  let base := ofRatio false digits 1
  let magnitude : Option Double :=
    if exponent < 0 then some (base.scaleDown exponent.natAbs)
    else if exponent ≤ 308 then
      let scaled := base.times (powerOfTen exponent.natAbs)
      if scaled.isInfinite then none else some scaled
    else if digits = 0 then some base
    else none
  magnitude.map fun x => if negative then x.negate else x

end Double

end ThreeAddress
