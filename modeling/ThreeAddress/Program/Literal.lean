import ThreeAddress.Number.Decimal

/-! The values a constant instruction may carry. -/

namespace ThreeAddress

/-- A literal: a 64-bit signed integer, a boolean or a floating point number. Two literals are
equal when they are of one kind and have the same bits.
-/
inductive Literal where
  | int (value : Int64)
  | bool (value : Bool)
  | float (value : Double)
deriving DecidableEq, Repr

/-- Listings write floating point numbers with an exponent below `1e-4` and from `1e16` on. -/
def listingStyle : FloatStyle :=
  { tie := .up, lowest := -4, highest := 15, plusSign := false }

namespace Literal

/-- The integer a literal stands for. -/
def int? : Literal → Option Int64
  | int value => some value
  | _ => none

/-- The boolean a literal stands for. -/
def bool? : Literal → Option Bool
  | bool value => some value
  | _ => none

def isNaN : Literal → Bool
  | float value => value.isNaN
  | _ => false

/-- Equality as values: floating point numbers are compared as numbers, so the zeros agree and
a NaN does not agree with itself.
-/
def agrees : Literal → Literal → Bool
  | float x, float y => x.agrees y
  | x, y => x == y

/-- The literal as it is written in a listing. -/
def text : Literal → String
  | int value => toString value.toInt
  | bool value => if value then "true" else "false"
  | float value => listingStyle.render value

end Literal

end ThreeAddress
