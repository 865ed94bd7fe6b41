import ThreeAddress.Program.Literal
import ThreeAddress.Program.Opcode
import ThreeAddress.Program.Ty

/-! Instructions: labels, which start a block, and operations. -/

namespace ThreeAddress

/-- An operation. The labels of a `jmp` are its target, those of a `br` the targets taken when
the condition is false and true, and those of a `phi` the blocks its arguments come from.
-/
structure Operation where
  opcode : Opcode
  dest : Option String := none
  ty : Option Ty := none
  args : List String := []
  value : Option Literal := none
  labels : List String := []
  funcs : List String := []
deriving DecidableEq, Repr

/-- An element of a function's flat body. -/
inductive Instruction where
  | label (name : String)
  | operation (op : Operation)
deriving DecidableEq, Repr

namespace Operation

def isTerminator (op : Operation) : Bool :=
  op.opcode.isTerminator

/-- The operation selects a value by the block control came from. -/
def isPhi (op : Operation) : Bool :=
  op.opcode == .phi

/-- The labels control may go to, in the order they are written. -/
def branchTargets (op : Operation) : List String :=
  if op.opcode.isBranch then op.labels else []

/-- The slots of a phi: each argument with the label of the block it comes from. -/
def slots (op : Operation) : List (String × String) :=
  op.args.zip op.labels

/-- Equality of operations whose literals are compared as values. -/
def agrees (left right : Operation) : Bool :=
  { left with value := none } == { right with value := none }
    && match left.value, right.value with
      | some x, some y => x.agrees y
      | none, none => true
      | _, _ => false

end Operation

namespace Instruction

/-- The name of a label. -/
def label? : Instruction → Option String
  | label name => some name
  | operation _ => none

/-- The operation of an instruction that is no label. -/
def operation? : Instruction → Option Operation
  | label _ => none
  | operation op => some op

end Instruction

end ThreeAddress
