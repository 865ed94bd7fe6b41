import ThreeAddress.Number.Decimal

/-! JSON values as a text gives them. Numbers stay literals and objects keep the order and
repetition of their members, so whoever reads a value decides on ranges and on duplicates.
-/

namespace ThreeAddress

/-- A JSON value. A string is absent when an escape in it is half of a surrogate pair: such a
text is well formed and stands for no string.
-/
inductive Json where
  | null
  | bool (value : Bool)
  | number (literal : String)
  | string (value : Option String)
  | array (items : List Json)
  | object (members : List (Option String × Json))
deriving Inhabited, Repr

namespace Json

/-- A string as a JSON value. -/
def ofString (text : String) : Json :=
  .string (some text)

/-- A list of strings as a JSON array. -/
def ofStrings (texts : List String) : Json :=
  .array (texts.map ofString)

/-- A natural number as a JSON number. -/
def ofNat (n : Nat) : Json :=
  .number (String.ofList (decimalDigits n))

/-- An integer as a JSON number. -/
def ofInt (n : Int) : Json :=
  .number (toString n)

/-- A value or null. -/
def ofOption {α : Type} (encode : α → Json) : Option α → Json
  | some value => encode value
  | none => .null

/-- An object with the given members. -/
def ofMembers (members : List (String × Json)) : Json :=
  .object (members.map fun (name, value) => (some name, value))

end Json

end ThreeAddress
