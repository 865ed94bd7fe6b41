import ThreeAddress.Json.Numeral
import ThreeAddress.Json.Value

/-! Reading typed data out of JSON values. Arrays and objects that carry data may be nested to a
limited depth; readers pass on how many more levels there is room for.
-/

namespace ThreeAddress.Json

/-- How many arrays and objects may be nested in each other. -/
def maxDepth : Nat := 127

/-- The fields of a record, by name. A field that is not given is absent. -/
abbrev Fields := String → Option Json

/-- The string a value is. -/
def string? : Json → Option String
  | string value => value
  | _ => none

/-- The items of an array, if there is room for one more level. -/
def items? (room : Nat) : Json → Option (List Json)
  | array items => if room = 0 then none else some items
  | _ => none

/-- Reads an array whose items are all of one kind. -/
def listOf? {α : Type} (item? : Nat → Json → Option α) (room : Nat) (value : Json)
    : Option (List α) :=
  (value.items? room).bind fun items => items.mapM (item? (room - 1))

/-- Reads a value that may be null. -/
def nullable? {α : Type} (value? : Json → Option α) : Json → Option (Option α)
  | null => some none
  | value => (value? value).map some

/-- The value of the first member with a name. -/
def member? (members : List (Option String × Json)) (name : String) : Option Json :=
  (members.find? fun member => member.1 == some name).map (·.2)

/-- How often a name occurs among the members. -/
def memberCount (members : List (Option String × Json)) (name : String) : Nat :=
  members.countP fun member => member.1 == some name

/-- The fields of a record with the given field names. It is written either as an object, whose
members may stand in any order and beside unknown ones, each known one at most once, or as an
array of its fields in their order, of which only the first few must be there.
-/
def fields? (names : List String) (required room : Nat) : Json → Option Fields
  | object members =>
    if room = 0 || members.any (·.1.isNone) || names.any (1 < memberCount members ·) then none
    else some (member? members)
  | array items =>
    if room = 0 || items.length < required || names.length < items.length then none
    else some fun name => (names.zip items).lookup name
  | _ => none

/-- A field that must be given. -/
def Fields.required {α : Type} (fields : Fields) (name : String) (read? : Json → Option α)
    : Option α :=
  (fields name).bind read?

/-- A field that has a default when it is not given. -/
def Fields.withDefault {α : Type} (fields : Fields) (name : String) (default : α)
    (read? : Json → Option α) : Option α :=
  match fields name with
  | some value => read? value
  | none => some default

/-- The single member of an object, which names a variant and holds its content. -/
def variant? (room : Nat) : Json → Option (String × Json)
  | object [(some name, content)] => if room = 0 then none else some (name, content)
  | _ => none

/-- The name of a variant without content: a string, or an object whose only member holds
null.
-/
def unitVariant? (room : Nat) (value : Json) : Option String :=
  match value.string? with
  | some name => some name
  | none =>
    match value.variant? room with
    | some (name, null) => some name
    | _ => none

/-- The number literal stands for a finite number. -/
def hasRange (literal : String) : Bool :=
  match Numeral.ofChars? literal.toList with
  | some numeral => numeral.double?.isSome
  | none => false

mutual

/-- A value can be held whole: its strings are strings, its numbers finite and its nesting
within the room.
-/
def isHoldable (room : Nat) : Json → Bool
  | null => true
  | bool _ => true
  | number literal => hasRange literal
  | string value => value.isSome
  | array items => room != 0 && areHoldable (room - 1) items
  | object members => room != 0 && areHoldableMembers (room - 1) members

/-- Every item can be held whole. -/
def areHoldable (room : Nat) : List Json → Bool
  | [] => true
  | item :: rest => isHoldable room item && areHoldable room rest

/-- Every member can be held whole, names included. -/
def areHoldableMembers (room : Nat) : List (Option String × Json) → Bool
  | [] => true
  | (name, value) :: rest =>
    name.isSome && isHoldable room value && areHoldableMembers room rest

end

/-- The natural number below a limit that a value is. -/
def natBelow? (limit : Nat) : Json → Option Nat
  | number literal =>
    match (Numeral.ofChars? literal.toList).bind Numeral.int? with
    | some (.ofNat n) => if n < limit then some n else none
    | _ => none
  | _ => none

end ThreeAddress.Json
