import ThreeAddress.Json.Printer
import ThreeAddress.Json.Reader
import ThreeAddress.Json.Record
import ThreeAddress.Program.Function

/-! Programs as JSON: the form in which they are read and stored. Reading is lenient about
unknown fields and about records written as arrays; writing leaves out what is absent or empty.
-/

namespace ThreeAddress

/-- JSON text writes floating point numbers with an exponent below `1e-5` and from `1e16` on,
and a positive exponent with its sign.
-/
def jsonStyle : FloatStyle :=
  { tie := .toEven, lowest := -5, highest := 15, plusSign := true }

/-- A member that is left out when the list is empty. -/
def listMember (name : String) (texts : List String) : List (String × Json) :=
  if texts.isEmpty then [] else [(name, Json.ofStrings texts)]

/-- A member that is left out when the value is absent. -/
def optionMember {α : Type} (name : String) (encode : α → Json) (value : Option α)
    : List (String × Json) :=
  match value with
  | some value => [(name, encode value)]
  | none => []

namespace Ty

/-- A simple type is its name, a pointer type an object around the type pointed to. -/
def toJson : Ty → Json
  | ptr pointee => .ofMembers [("ptr", pointee.toJson)]
  | ty => .ofString ty.text

def ofName? : String → Option Ty
  | "int" => some int
  | "bool" => some bool
  | "float" => some float
  | _ => none

def ofJson? (room : Nat) (value : Json) : Option Ty :=
  match room, value with
  | _, .string name => name.bind ofName?
  | room + 1, .object [(some name, content)] =>
    if name == "ptr" then (ofJson? room content).map ptr
    else match content with
      | .null => ofName? name
      | _ => none
  | _, _ => none

end Ty

namespace Literal

/-- The literal a number stands for: an integer if it is written as one and fits 64 bits, and
a floating point number otherwise.
-/
def ofNumeral? (numeral : Numeral) : Option Literal :=
  match numeral.int? with
  | some n =>
    if Int64.minValue.toInt ≤ n ∧ n ≤ Int64.maxValue.toInt then some (int (Int64.ofInt n))
    else numeral.double?.map float
  | none => numeral.double?.map float

def ofJson? : Json → Option Literal
  | .bool value => some (bool value)
  | .number literal => (Numeral.ofChars? literal.toList).bind ofNumeral?
  | _ => none

/-- Numbers and booleans stand for themselves; what is no number becomes null. -/
def toJson : Literal → Json
  | int value => .ofInt value.toInt
  | bool value => .bool value
  | float value => if value.isFinite then .number (jsonStyle.render value) else .null

end Literal

namespace Opcode

def ofJson? (room : Nat) (value : Json) : Option Opcode :=
  (value.unitVariant? room).bind ofName?

def toJson (code : Opcode) : Json :=
  .ofString code.name

end Opcode

/-- Reads an array of strings. -/
def names? (room : Nat) (value : Json) : Option (List String) :=
  Json.listOf? (fun _ => Json.string?) room value

namespace Operation

/-- The fields of an operation in their order. -/
def fieldNames : List String :=
  ["op", "dest", "type", "args", "value", "labels", "funcs"]

def ofJson? (room : Nat) (value : Json) : Option Operation := do
  let fields ← value.fields? fieldNames 1 room
  let opcode ← fields.required "op" (Opcode.ofJson? (room - 1))
  let dest ← fields.withDefault "dest" none (Json.nullable? Json.string?)
  let ty ← fields.withDefault "type" none (Json.nullable? (Ty.ofJson? (room - 1)))
  let args ← fields.withDefault "args" [] (names? (room - 1))
  let literal ← fields.withDefault "value" none (Json.nullable? Literal.ofJson?)
  let labels ← fields.withDefault "labels" [] (names? (room - 1))
  let funcs ← fields.withDefault "funcs" [] (names? (room - 1))
  some { opcode, dest, ty, args, value := literal, labels, funcs }

def toJson (op : Operation) : Json :=
  .ofMembers (("op", op.opcode.toJson) :: (optionMember "dest" Json.ofString op.dest
    ++ optionMember "type" Ty.toJson op.ty ++ listMember "args" op.args
    ++ optionMember "value" Literal.toJson op.value ++ listMember "labels" op.labels
    ++ listMember "funcs" op.funcs))

end Operation

namespace Instruction

/-- The name a value declares as a label: the string in the only member called `label`. -/
def labelOfJson? : Json → Option String
  | .object members =>
    if Json.memberCount members "label" = 1 then
      (Json.member? members "label").bind Json.string?
    else none
  | _ => none

/-- Reads an instruction, which must be held whole before it is known to be a label or an
operation. What can be read as a label is one.
-/
def ofJson? (room : Nat) (value : Json) : Option Instruction :=
  if value.isHoldable room then
    match labelOfJson? value with
    | some name => some (label name)
    | none => (Operation.ofJson? room value).map operation
  else none

def toJson : Instruction → Json
  | label name => .ofMembers [("label", .ofString name)]
  | operation op => op.toJson

end Instruction

namespace Param

def ofJson? (room : Nat) (value : Json) : Option Param := do
  let fields ← value.fields? ["name", "type"] 2 room
  let name ← fields.required "name" Json.string?
  let ty ← fields.required "type" (Ty.ofJson? (room - 1))
  some { name, ty }

def toJson (param : Param) : Json :=
  .ofMembers [("name", .ofString param.name), ("type", param.ty.toJson)]

end Param

namespace Function

/-- The fields of a function in their order. -/
def fieldNames : List String :=
  ["name", "args", "type", "instrs"]

def ofJson? (room : Nat) (value : Json) : Option Function := do
  let fields ← value.fields? fieldNames 1 room
  let name ← fields.required "name" Json.string?
  let params ← fields.withDefault "args" [] (Json.listOf? Param.ofJson? (room - 1))
  let returnType ← fields.withDefault "type" none (Json.nullable? (Ty.ofJson? (room - 1)))
  let body ← fields.withDefault "instrs" [] (Json.listOf? Instruction.ofJson? (room - 1))
  some { name, params, returnType, body }

/-- Writes a function. Its body is written even when it is empty. -/
def toJson (f : Function) : Json :=
  let params := if f.params.isEmpty then [] else [("args", .array (f.params.map Param.toJson))]
  .ofMembers (("name", .ofString f.name) :: (params ++ optionMember "type" Ty.toJson f.returnType
    ++ [("instrs", .array (f.body.map Instruction.toJson))]))

end Function

namespace Program

def ofJson? (value : Json) : Option Program := do
  let fields ← value.fields? ["functions"] 1 Json.maxDepth
  let functions ← fields.required "functions" (Json.listOf? Function.ofJson? (Json.maxDepth - 1))
  some { functions }

def toJson (program : Program) : Json :=
  .ofMembers [("functions", .array (program.functions.map Function.toJson))]

/-- The program a JSON text holds. -/
def parse? (text : String) : Option Program :=
  (Json.parse? text).bind ofJson?

def compact (program : Program) : String :=
  program.toJson.compact

def pretty (program : Program) : String :=
  program.toJson.pretty

end Program

end ThreeAddress
