/-! The types a variable may be declared with. -/

namespace ThreeAddress

/-- A type: integers, booleans, floating point numbers and pointers to any of them. -/
inductive Ty where
  | int
  | bool
  | float
  | ptr (pointee : Ty)
deriving DecidableEq, Repr

namespace Ty

/-- The type as it is written in a listing. -/
def text : Ty → String
  | int => "int"
  | bool => "bool"
  | float => "float"
  | ptr pointee => "ptr<" ++ pointee.text ++ ">"

/-- The type is the integer type. -/
def isIntegral : Ty → Bool
  | int => true
  | _ => false

end Ty

end ThreeAddress
