import ThreeAddress.Program.Function
import ThreeAddress.Simplify.Folding

/-! Local value numbering. Within a block every value gets a number, and the variable that holds
it is its home: a value computed again becomes a copy of its home, uses go to the home, and
operations on known operands become constants.
-/

namespace ThreeAddress

/-- What is known of a numbered value. -/
structure ValueInfo where
  /-- The variable that holds the value; none once that variable is overwritten. -/
  home : Option String := none
  /-- The literal the value is known to be. -/
  constant : Option Literal := none
  /-- The type of the variable the value was first computed for. -/
  ty : Option Ty := none
deriving DecidableEq, Repr

/-- How a value is computed: as a literal, or by an operation on numbered values. -/
inductive ValueKey where
  | const (literal : Literal)
  | expr (opcode : Opcode) (operands : List Nat)
deriving DecidableEq, Repr

/-- The numbered values of a block, and the numbers of variables and of computations, newest
first.
-/
structure ValueTable where
  values : Array ValueInfo := #[]
  vars : List (String × Nat) := []
  keys : List (ValueKey × Nat) := []

/-- Puts a number in its place among sorted ones. -/
def insertSorted (n : Nat) : List Nat → List Nat
  | [] => [n]
  | m :: rest => if n ≤ m then n :: m :: rest else m :: insertSorted n rest

/-- The operation turned into the definition of a constant. -/
def Operation.toConst (op : Operation) (literal : Literal) : Operation :=
  { op with opcode := .const, args := [], labels := [], funcs := [], value := literal }

namespace ValueTable

def empty : ValueTable := {}

def home? (table : ValueTable) (num : Nat) : Option String :=
  table.values[num]?.bind (·.home)

def constant? (table : ValueTable) (num : Nat) : Option Literal :=
  table.values[num]?.bind (·.constant)

def ty? (table : ValueTable) (num : Nat) : Option Ty :=
  table.values[num]?.bind (·.ty)

def push (table : ValueTable) (constant : Option Literal) (ty : Option Ty)
    : Nat × ValueTable :=
  (table.values.size, { table with values := table.values.push { constant, ty } })

/-- Remembers how a value is computed. -/
def learn (table : ValueTable) (key : ValueKey) (num : Nat) : ValueTable :=
  { table with keys := (key, num) :: table.keys }

/-- The value that a variable held loses its home if the variable was it. -/
def release (table : ValueTable) (var : String) : ValueTable :=
  match table.vars.lookup var with
  | some old =>
    if table.home? old = some var then
      { table with values := table.values.modify old ({ · with home := none }) }
    else table
  | none => table

/-- Makes a variable hold a value, and its home if it has none. -/
def bind (table : ValueTable) (var : String) (num : Nat) : ValueTable :=
  let table := table.release var
  { table with
    vars := (var, num) :: table.vars
    values := table.values.modify num fun info => { info with home := info.home.or var } }

/-- The number of the value a variable holds. A variable not seen before holds a new one. -/
def numberOf (table : ValueTable) (var : String) : Nat × ValueTable :=
  match table.vars.lookup var with
  | some num => (num, table)
  | none =>
    let (num, table) := table.push none none
    (num, table.bind var num)

/-- The numbers of the values several variables hold. -/
def numbersOf (table : ValueTable) : List String → List Nat × ValueTable
  | [] => ([], table)
  | var :: rest =>
    let (num, table) := table.numberOf var
    let (nums, table) := table.numbersOf rest
    (num :: nums, table)

/-- The literal an operation gives: the one it carries, the result of known operands, or that of
comparing an integer or boolean with itself.
-/
def folded? (table : ValueTable) (op : Operation) (nums : List Nat) : Option Literal :=
  match op.opcode, nums with
  | .const, _ => op.value
  | code, [left, right] =>
    (foldConstant code [table.constant? left, table.constant? right]).or
      (if left = right ∧ code.isComparison
          ∧ (table.ty? left = some .int ∨ table.ty? left = some .bool)
        then foldSelfComparison code
        else none)
  | code, nums => foldConstant code (nums.map table.constant?)

/-- The key of an operation. Operands that may be given in either order are sorted. -/
def exprKey (opcode : Opcode) (nums : List Nat) : ValueKey :=
  .expr opcode (if opcode.isCommutative then nums.foldr insertSorted [] else nums)

def numberConst (table : ValueTable) (literal : Literal) (ty : Option Ty) : Nat × ValueTable :=
  match table.keys.lookup (.const literal) with
  | some num => (num, table)
  | none =>
    let (num, table) := table.push literal ty
    (num, table.learn (.const literal) num)

/-- Numbers a computation under its key as a new value. -/
def numberFresh (table : ValueTable) (key : ValueKey) (ty : Option Ty) : Nat × ValueTable :=
  let (num, table) := table.push none ty
  (num, table.learn key num)

/-- Numbers what a pure operation computes for its destination. The operation becomes a constant
if its result is known, and a copy if another variable holds its result.
-/
def numberPure (table : ValueTable) (op : Operation) (dest : String) (nums : List Nat)
    : Nat × Operation × ValueTable :=
  match op.opcode, nums with
  | .id, [num] =>
    (num, (table.constant? num).elim op op.toConst, table)
  | .id, _ =>
    let (num, table) := table.push none op.ty
    (num, op, table)
  | _, _ =>
    if op.opcode = .const ∧ op.value = none then
      let (num, table) := table.push none op.ty
      (num, op, table)
    else match table.folded? op nums with
      | some literal =>
        let (num, table) := table.numberConst literal op.ty
        (num, op.toConst literal, table)
      | none =>
        let key := exprKey op.opcode nums
        match (table.keys.lookup key).bind fun num => (table.home? num).map (num, ·) with
        | some (num, home) =>
          let copy : Operation := { opcode := .id, dest, ty := op.ty, args := [home] }
          (num, if home = dest then op else copy, table)
        | none =>
          let (num, table) := table.numberFresh key op.ty
          (num, op, table)

/-- Sends each use to the home of the value it uses, if that has one. -/
def redirect (table : ValueTable) (args : List String) (nums : List Nat) : List String :=
  List.zipWith (fun arg num => (table.home? num).getD arg) args nums

/-- Numbers and simplifies one operation. The arguments of a phi are values of other blocks, so it
stays as it is.
-/
def visit (table : ValueTable) (op : Operation) : Operation × ValueTable :=
  if op.isPhi then
    match op.dest with
    | some dest =>
      let (num, table) := table.push none op.ty
      (op, table.bind dest num)
    | none => (op, table)
  else
    let (nums, table) := table.numbersOf op.args
    let op := { op with args := table.redirect op.args nums }
    match op.dest with
    | some dest =>
      if op.opcode.isPure then
        let (num, op, table) := table.numberPure op dest nums
        (op, table.bind dest num)
      else
        let (num, table) := table.push none op.ty
        (op, table.bind dest num)
    | none => (op, table)

end ValueTable

/-- Simplifies a body block by block. The flag tells whether an operation other than a phi became
one that does not agree with it.
-/
def numberValues : ValueTable → List Instruction → List Instruction × Bool
  | _, [] => ([], false)
  | _, .label name :: rest =>
    let (body, changed) := numberValues .empty rest
    (.label name :: body, changed)
  | table, .operation op :: rest =>
    let (next, table) := table.visit op
    let (body, changed) := numberValues table rest
    (.operation next :: body, (!op.isPhi && !op.agrees next) || changed)

/-- Value numbering of a function. The flag tells whether an operation changed. -/
def Function.numberValues (f : Function) : Function × Bool :=
  let (body, changed) := ThreeAddress.numberValues .empty f.body
  ({ f with body }, changed)

end ThreeAddress
