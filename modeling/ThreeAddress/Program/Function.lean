import ThreeAddress.Program.Instruction

/-! Functions and programs. -/

namespace ThreeAddress

/-- A parameter of a function with its declared type. -/
structure Param where
  name : String
  ty : Ty
deriving DecidableEq, Repr

/-- A function: its signature and its flat body of labels and operations. -/
structure Function where
  name : String
  params : List Param := []
  returnType : Option Ty := none
  body : List Instruction := []
deriving DecidableEq, Repr

/-- A program is an ordered list of functions that do not depend on each other. -/
structure Program where
  functions : List Function := []
deriving DecidableEq, Repr

namespace Function

/-- The operations of a function in the order they are written. -/
def operations (f : Function) : List Operation :=
  f.body.filterMap Instruction.operation?

/-- The labels a function declares, in the order they are written. -/
def labels (f : Function) : List String :=
  f.body.filterMap Instruction.label?

/-- Some operation of the function is a phi. -/
def hasPhi (f : Function) : Bool :=
  f.operations.any Operation.isPhi

end Function

/-- The first function with the given name. -/
def Program.function? (program : Program) (name : String) : Option Function :=
  program.functions.find? fun f => f.name == name

/-- Changes the first function with the given name. -/
def Program.modifyFunction (program : Program) (name : String) (change : Function → Function)
    : Program :=
  match program.functions.findIdx? fun f => f.name == name with
  | some index => { program with functions := program.functions.modify index change }
  | none => program

end ThreeAddress
