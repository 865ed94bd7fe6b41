import ThreeAddress.Program.Function

/-! Writing a function by appending one instruction after another, and editing it. -/

namespace ThreeAddress

/-- The operation with a destination and its type, or with neither: an operation that is written
declares a type only for a destination.
-/
def Operation.withResult (op : Operation) (result : Option (String × Ty)) : Operation :=
  { op with dest := result.map (·.1), ty := result.map (·.2) }

namespace Function

/-- Appends a parameter. -/
def addParam (f : Function) (name : String) (ty : Ty) : Function :=
  { f with params := f.params ++ [{ name, ty }] }

/-- Declares the type of the returned value. -/
def returning (f : Function) (ty : Ty) : Function :=
  { f with returnType := some ty }

/-- Appends a label. -/
def addLabel (f : Function) (name : String) : Function :=
  { f with body := f.body ++ [.label name] }

/-- Appends an operation. -/
def addOperation (f : Function) (op : Operation) : Function :=
  { f with body := f.body ++ [.operation op] }

/-- Appends the definition of a constant. -/
def addConst (f : Function) (dest : String) (ty : Ty) (value : Literal) : Function :=
  f.addOperation { opcode := .const, dest, ty, value }

/-- Appends a copy. -/
def addCopy (f : Function) (dest : String) (ty : Ty) (source : String) : Function :=
  f.addOperation { opcode := .id, dest, ty, args := [source] }

/-- Appends an operation on one operand. -/
def addUnary (f : Function) (opcode : Opcode) (dest : String) (ty : Ty) (operand : String)
    : Function :=
  f.addOperation { opcode, dest, ty, args := [operand] }

/-- Appends an operation on two operands. -/
def addBinary (f : Function) (opcode : Opcode) (dest : String) (ty : Ty)
    (left right : String) : Function :=
  f.addOperation { opcode, dest, ty, args := [left, right] }

/-- Appends an integer addition. -/
def addSum (f : Function) (dest left right : String) : Function :=
  f.addBinary .add dest .int left right

/-- Appends a jump. -/
def addJump (f : Function) (target : String) : Function :=
  f.addOperation { opcode := .jmp, labels := [target] }

/-- Appends a conditional branch. -/
def addBranch (f : Function) (condition ifFalse ifTrue : String) : Function :=
  f.addOperation { opcode := .br, args := [condition], labels := [ifFalse, ifTrue] }

/-- Appends a return, with or without a value. -/
def addReturn (f : Function) (value : Option String) : Function :=
  f.addOperation { opcode := .ret, args := value.toList }

/-- Appends an output operation. -/
def addPrint (f : Function) (args : List String) : Function :=
  f.addOperation { opcode := .print, args }

/-- Appends a call, which may define a variable of a type. -/
def addCall (f : Function) (result : Option (String × Ty)) (callee : String)
    (args : List String) : Function :=
  let call : Operation := { opcode := .call, args, funcs := [callee] }
  f.addOperation (call.withResult result)

/-- Puts an instruction in front of the one at a position. -/
def insertAt (f : Function) (position : Nat) (instruction : Instruction) : Function :=
  { f with body := f.body.insertIdx position instruction }

/-- Removes the instruction at a position. -/
def removeAt (f : Function) (position : Nat) : Function :=
  { f with body := f.body.eraseIdx position }

/-- Replaces every use of a variable by one of another. -/
def replaceUses (f : Function) (var replacement : String) : Function :=
  let replace (op : Operation) : Operation :=
    { op with args := op.args.map fun arg => if arg = var then replacement else arg }
  { f with
    body := f.body.map fun
      | .label name => .label name
      | .operation op => .operation (replace op) }

end Function

end ThreeAddress
