import ThreeAddress.Number.Double

/-! Number literals: their grammar, and the numbers they stand for. -/

namespace ThreeAddress

/-- The parts of a number literal: a sign, the digits before the point, the digits after it
and the sign and digits of an exponent.
-/
structure Numeral where
  negative : Bool
  whole : List Char
  fraction : List Char := []
  exponent : Option (Bool × List Char) := none
deriving Repr

def digitValue (c : Char) : Nat :=
  c.toNat - '0'.toNat

/-- The number a list of digits stands for. -/
def digitsValue (digits : List Char) : Nat :=
  digits.foldl (fun n c => 10 * n + digitValue c) 0

namespace Numeral

/-- Splits off a minus sign. -/
def sign : List Char → Bool × List Char
  | '-' :: rest => (true, rest)
  | text => (false, text)

/-- Reads the digits after a point, of which there must be one. -/
def fraction? : List Char → Option (List Char × List Char)
  | '.' :: rest =>
    let digits := rest.takeWhile Char.isDigit
    if digits.isEmpty then none else some (digits, rest.dropWhile Char.isDigit)
  | text => some ([], text)

/-- Reads the sign and digits of an exponent that makes up the whole text. -/
def exponentDigits? (text : List Char) : Option (Bool × List Char) :=
  let (negative, digits) := match text with
    | '-' :: rest => (true, rest)
    | '+' :: rest => (false, rest)
    | _ => (false, text)
  if digits.isEmpty || !digits.all Char.isDigit then none else some (negative, digits)

/-- Reads a literal. The digits before the point are either a single zero or start with
another digit.
-/
def ofChars? (text : List Char) : Option Numeral := do
  let (negative, text) := sign text
  let whole := text.takeWhile Char.isDigit
  guard (whole == ['0'] || (!whole.isEmpty && whole.head? != some '0'))
  let (fraction, text) ← fraction? (text.dropWhile Char.isDigit)
  match text with
  | [] => some { negative, whole, fraction }
  | c :: rest =>
    guard (c == 'e' || c == 'E')
    let exponent ← exponentDigits? rest
    some { negative, whole, fraction, exponent }

/-- The integer a literal without point and exponent stands for. A negative zero is no
integer.
-/
def int? (n : Numeral) : Option Int :=
  if !n.fraction.isEmpty || n.exponent.isSome || (n.negative && n.whole == ['0']) then none
  else if n.negative then some (-(digitsValue n.whole : Int))
  else some (digitsValue n.whole)

def wordLimit : Nat := UInt64.size - 1

/-- The significand of a literal and the power of ten that goes with it. -/
structure Scaled where
  digits : Nat := 0
  exponent : Int := 0

/-- Takes digits before the point while the significand fits 64 bits; each digit after that
only raises the exponent.
-/
def Scaled.addWhole (acc : Scaled) : List Char → Scaled
  | [] => acc
  | c :: rest =>
    let next := 10 * acc.digits + digitValue c
    if next ≤ wordLimit then { acc with digits := next }.addWhole rest
    else { acc with exponent := acc.exponent + (rest.length + 1) }

/-- Takes digits after the point while the significand fits 64 bits; those after that are
dropped.
-/
def Scaled.addFraction (acc : Scaled) : List Char → Scaled
  | [] => acc
  | c :: rest =>
    let next := 10 * acc.digits + digitValue c
    if next ≤ wordLimit then
      { digits := next, exponent := acc.exponent - 1 : Scaled }.addFraction rest
    else acc

def exponentLimit : Nat := (1 <<< 31) - 1

/-- The floating point number a literal stands for, or nothing when it is too large. -/
def double? (n : Numeral) : Option Double :=
  let scaled := (Scaled.addWhole {} n.whole).addFraction n.fraction
  match n.exponent with
  | none => Double.ofDecimal? n.negative scaled.digits scaled.exponent
  | some (negative, digits) =>
    let exponent := digitsValue digits
    if exponent ≤ exponentLimit then
      Double.ofDecimal? n.negative scaled.digits
        (if negative then scaled.exponent - exponent else scaled.exponent + exponent)
    else if negative || scaled.digits == 0 then Double.ofDecimal? n.negative 0 0
    else none

end Numeral

end ThreeAddress
