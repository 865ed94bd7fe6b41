import ThreeAddress.Json.Record

/-! What a verification may find, its wording and its JSON form. -/

namespace ThreeAddress

/-- The rules a function can break. -/
inductive DiagnosticCode where
  | malformedFunction
  | unreachableBlock
  | phiNotAtBlockTop
  | phiInEntryBlock
  | phiArgCountMismatchPreds
  | phiHasNonPredIncoming
  | phiDuplicateIncomingBlock
  | phiIncomingTypeMismatch
  | useBeforeDefInBlock
  | defDoesNotDominateUse
  | phiIncomingNotAvailableOnEdge
  | multipleDefinition
  | undefinedVariable
deriving DecidableEq, Repr

namespace DiagnosticCode

def all : List DiagnosticCode :=
  [malformedFunction, unreachableBlock, phiNotAtBlockTop, phiInEntryBlock,
    phiArgCountMismatchPreds, phiHasNonPredIncoming, phiDuplicateIncomingBlock,
    phiIncomingTypeMismatch, useBeforeDefInBlock, defDoesNotDominateUse,
    phiIncomingNotAvailableOnEdge, multipleDefinition, undefinedVariable]

/-- The number of a code, three digits long. -/
def number : DiagnosticCode → Nat
  | malformedFunction => 200
  | unreachableBlock => 304
  | phiNotAtBlockTop => 400
  | phiInEntryBlock => 401
  | phiArgCountMismatchPreds => 402
  | phiHasNonPredIncoming => 403
  | phiDuplicateIncomingBlock => 404
  | phiIncomingTypeMismatch => 405
  | useBeforeDefInBlock => 500
  | defDoesNotDominateUse => 501
  | phiIncomingNotAvailableOnEdge => 502
  | multipleDefinition => 503
  | undefinedVariable => 504

/-- The code as it is reported: four digits after a fixed mark. -/
def text (code : DiagnosticCode) : String :=
  "SSA0" ++ toString code.number

/-- The name of a code in JSON. -/
def name : DiagnosticCode → String
  | malformedFunction => "MalformedFunction"
  | unreachableBlock => "UnreachableBlock"
  | phiNotAtBlockTop => "PhiNotAtBlockTop"
  | phiInEntryBlock => "PhiInEntryBlock"
  | phiArgCountMismatchPreds => "PhiArgCountMismatchPreds"
  | phiHasNonPredIncoming => "PhiHasNonPredIncoming"
  | phiDuplicateIncomingBlock => "PhiDuplicateIncomingBlock"
  | phiIncomingTypeMismatch => "PhiIncomingTypeMismatch"
  | useBeforeDefInBlock => "UseBeforeDefInBlock"
  | defDoesNotDominateUse => "DefDoesNotDominateUse"
  | phiIncomingNotAvailableOnEdge => "PhiIncomingNotAvailableOnEdge"
  | multipleDefinition => "MultipleDefinition"
  | undefinedVariable => "UndefinedVariable"

def ofName? (name : String) : Option DiagnosticCode :=
  all.find? fun code => code.name == name

def ofJson? (room : Nat) (value : Json) : Option DiagnosticCode :=
  (value.unitVariant? room).bind ofName?

end DiagnosticCode

/-- Whether a finding makes a function invalid. -/
inductive Severity where
  | error
  | warning
deriving DecidableEq, Repr

namespace Severity

/-- The severity in words. -/
def text : Severity → String
  | error => "error"
  | warning => "warning"

/-- The name of a severity in JSON. -/
def name : Severity → String
  | error => "Error"
  | warning => "Warning"

def ofName? : String → Option Severity
  | "Error" => some error
  | "Warning" => some warning
  | _ => none

def ofJson? (room : Nat) (value : Json) : Option Severity :=
  (value.unitVariant? room).bind ofName?

end Severity

/-- Where a finding points: a function, a block given by its label, or an operation given by its
position in a block, phis included.
-/
inductive Location where
  | function (func : String)
  | block (func label : String)
  | operation (func label : String) (index : Nat)
deriving DecidableEq, Repr

namespace Location

/-- The function a location is in. -/
def func : Location → String
  | function func => func
  | block func _ => func
  | operation func _ _ => func

/-- The location as it is reported. -/
def text : Location → String
  | function func => s!"@{func}"
  | block func label => s!"@{func}:.{label}"
  | operation func label index => s!"@{func}:.{label}:{index}"

def toJson : Location → Json
  | function func => .ofMembers [("Function", .ofString func)]
  | block func label =>
    .ofMembers [("Block", .ofMembers [("func", .ofString func), ("block", .ofString label)])]
  | operation func label index =>
    .ofMembers [("Inst", .ofMembers
      [("func", .ofString func), ("block", .ofString label), ("index", .ofNat index)])]

def ofJson? (room : Nat) (value : Json) : Option Location := do
  let (kind, content) ← value.variant? room
  match kind with
  | "Function" => content.string?.map function
  | "Block" =>
    let fields ← content.fields? ["func", "block"] 2 (room - 1)
    let func ← fields.required "func" Json.string?
    let label ← fields.required "block" Json.string?
    some (.block func label)
  | "Inst" =>
    let fields ← content.fields? ["func", "block", "index"] 3 (room - 1)
    let func ← fields.required "func" Json.string?
    let label ← fields.required "block" Json.string?
    let index ← fields.required "index" (Json.natBelow? UInt64.size)
    some (.operation func label index)
  | _ => none

end Location

/-- A finding: the rule, how bad it is, where it is, remarks, and the operation in question as it
is listed.
-/
structure Diagnostic where
  code : DiagnosticCode
  severity : Severity
  message : String
  primary : Location
  notes : List String := []
  context : Option String := none
deriving DecidableEq, Repr

namespace Diagnostic

/-- The finding makes the function invalid. -/
def isError (diagnostic : Diagnostic) : Bool :=
  diagnostic.severity == .error

/-- The finding in one line, and one more line for each remark. -/
def text (diagnostic : Diagnostic) : String :=
  let context := match diagnostic.context with
    | some listing => s!" (`{listing}`)"
    | none => ""
  diagnostic.severity.text ++ " [" ++ diagnostic.code.text ++ "] " ++ diagnostic.message ++ " @ "
    ++ diagnostic.primary.text ++ context ++ "\n"
    ++ String.join (diagnostic.notes.map fun note => s!"  note: {note}\n")

def toJson (diagnostic : Diagnostic) : Json :=
  .ofMembers
    [("code", .ofString diagnostic.code.name),
      ("severity", .ofString diagnostic.severity.name),
      ("message", .ofString diagnostic.message),
      ("primary", diagnostic.primary.toJson),
      ("notes", .array (diagnostic.notes.map fun note => .ofMembers [("message", .ofString note)])),
      ("context", .ofOption (fun listing => .ofMembers [("inst_text", .ofString listing)])
        diagnostic.context)]

/-- Reads a record whose only field is a string. -/
def textRecord? (name : String) (room : Nat) (value : Json) : Option String := do
  let fields ← value.fields? [name] 1 room
  fields.required name Json.string?

def ofJson? (room : Nat) (value : Json) : Option Diagnostic := do
  let fields ← value.fields? ["code", "severity", "message", "primary", "notes", "context"] 6 room
  let code ← fields.required "code" (DiagnosticCode.ofJson? (room - 1))
  let severity ← fields.required "severity" (Severity.ofJson? (room - 1))
  let message ← fields.required "message" Json.string?
  let primary ← fields.required "primary" (Location.ofJson? (room - 1))
  let notes ← fields.required "notes" (Json.listOf? (textRecord? "message") (room - 1))
  let context ← fields.withDefault "context" none
    (Json.nullable? (textRecord? "inst_text" (room - 1)))
  some { code, severity, message, primary, notes, context }

end Diagnostic

end ThreeAddress
