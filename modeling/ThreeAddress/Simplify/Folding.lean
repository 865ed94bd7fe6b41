import ThreeAddress.Program.Literal
import ThreeAddress.Program.Opcode

/-! Folding of operations on known operands. Integers wrap at 64 bits, and a division that has
no result is not folded.
-/

namespace ThreeAddress

namespace Opcode

/-- The result of integer arithmetic. Division rounds toward zero; it has no result for a zero
divisor, nor for the least integer divided by minus one.
-/
def onInts? (code : Opcode) (left right : Int64) : Option Int64 :=
  match code with
  | add => some (left + right)
  | sub => some (left - right)
  | mul => some (left * right)
  | div =>
    if right = 0 ∨ (left = Int64.minValue ∧ right = -1) then none else some (left / right)
  | _ => none

def compareInts? (code : Opcode) (left right : Int64) : Option Bool :=
  match code with
  | eq => some (left == right)
  | ne => some (left != right)
  | lt => some (decide (left < right))
  | le => some (decide (left ≤ right))
  | gt => some (decide (right < left))
  | ge => some (decide (right ≤ left))
  | _ => none

/-- The result of comparing booleans, which have no order. -/
def compareBools? (code : Opcode) (left right : Bool) : Option Bool :=
  match code with
  | eq => some (left == right)
  | ne => some (left != right)
  | _ => none

/-- The result of an operation on two known operands. Only integers are computed with, and only
integers and booleans compared.
-/
def onLiterals? (code : Opcode) : Literal → Literal → Option Literal
  | .int left, .int right =>
    if code.isArithmetic then (code.onInts? left right).map .int
    else (code.compareInts? left right).map .bool
  | .bool left, .bool right => (code.compareBools? left right).map .bool
  | _, _ => none

end Opcode

/-- A conjunction with a false operand is false whatever the other one is. -/
def foldAnd : Option Bool → Option Bool → Option Bool
  | some false, _ => some false
  | _, some false => some false
  | some true, some true => some true
  | _, _ => none

/-- A disjunction with a true operand is true whatever the other one is. -/
def foldOr : Option Bool → Option Bool → Option Bool
  | some true, _ => some true
  | _, some true => some true
  | some false, some false => some false
  | _, _ => none

/-- The result of an operation whose operands are known in part, if that is enough. -/
def foldConstant (code : Opcode) (operands : List (Option Literal)) : Option Literal :=
  match code, operands with
  | .not, [some operand] => operand.bool?.map fun value => .bool !value
  | .and, [left, right] =>
    (foldAnd (left.bind Literal.bool?) (right.bind Literal.bool?)).map .bool
  | .or, [left, right] =>
    (foldOr (left.bind Literal.bool?) (right.bind Literal.bool?)).map .bool
  | code, [some left, some right] => code.onLiterals? left right
  | _, _ => none

/-- The result of comparing a value with itself, for values that equal themselves. -/
def foldSelfComparison : Opcode → Option Literal
  | .eq | .le | .ge => some (.bool true)
  | .ne | .lt | .gt => some (.bool false)
  | _ => none

end ThreeAddress
