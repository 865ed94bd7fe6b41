import ThreeAddress.Json.Value

/-! Writing JSON text, in one line or indented. -/

namespace ThreeAddress.Json

def hexDigit (n : Nat) : Char :=
  "0123456789abcdef".toList.getD n '0'

/-- A character inside a string. Quotes, backslashes and control characters are escaped. -/
def escape (c : Char) : List Char :=
  match c with
  | '"' => ['\\', '"']
  | '\\' => ['\\', '\\']
  | '\x08' => ['\\', 'b']
  | '\x0c' => ['\\', 'f']
  | '\n' => ['\\', 'n']
  | '\r' => ['\\', 'r']
  | '\t' => ['\\', 't']
  | c =>
    if c.toNat < 0x20 then
      ['\\', 'u', '0', '0', hexDigit (c.toNat / 16), hexDigit (c.toNat % 16)]
    else [c]

def quoted (text : String) : List Char :=
  '"' :: (text.toList.flatMap escape ++ ['"'])

/-- A string that may be absent, which is written like the empty one. -/
def quotedOrEmpty (text : Option String) : List Char :=
  quoted (text.getD "")

mutual

/-- A value in one line without blanks. -/
def compactChars : Json → List Char
  | null => "null".toList
  | bool value => if value then "true".toList else "false".toList
  | number literal => literal.toList
  | string value => quotedOrEmpty value
  | array items => '[' :: compactItems items
  | object members => '{' :: compactMembers members

/-- Items separated by commas, with the closing bracket. -/
def compactItems : List Json → List Char
  | [] => [']']
  | [item] => compactChars item ++ [']']
  | item :: next :: rest => compactChars item ++ ',' :: compactItems (next :: rest)

/-- Members separated by commas, with the closing brace. -/
def compactMembers : List (Option String × Json) → List Char
  | [] => ['}']
  | [(name, value)] => quotedOrEmpty name ++ ':' :: (compactChars value ++ ['}'])
  | (name, value) :: next :: rest =>
    quotedOrEmpty name ++ ':' :: (compactChars value ++ ',' :: compactMembers (next :: rest))

end

/-- A line break followed by two blanks per level. -/
def newline (level : Nat) : List Char :=
  '\n' :: List.replicate (2 * level) ' '

mutual

/-- A value over several lines: every item and member stands on a line of its own. -/
def prettyChars (level : Nat) : Json → List Char
  | null => "null".toList
  | bool value => if value then "true".toList else "false".toList
  | number literal => literal.toList
  | string value => quotedOrEmpty value
  | array [] => ['[', ']']
  | array (item :: rest) => '[' :: prettyItems level (item :: rest)
  | object [] => ['{', '}']
  | object (member :: rest) => '{' :: prettyMembers level (member :: rest)

/-- Items on lines of their own, with the closing bracket. -/
def prettyItems (level : Nat) : List Json → List Char
  | [] => newline level ++ [']']
  | [item] => newline (level + 1) ++ prettyChars (level + 1) item ++ newline level ++ [']']
  | item :: next :: rest =>
    newline (level + 1) ++ prettyChars (level + 1) item ++ ',' :: prettyItems level (next :: rest)

/-- Members on lines of their own, with the closing brace. -/
def prettyMembers (level : Nat) : List (Option String × Json) → List Char
  | [] => newline level ++ ['}']
  | [(name, value)] =>
    newline (level + 1) ++ quotedOrEmpty name ++ ':' :: ' ' ::
      (prettyChars (level + 1) value ++ newline level ++ ['}'])
  | (name, value) :: next :: rest =>
    newline (level + 1) ++ quotedOrEmpty name ++ ':' :: ' ' ::
      (prettyChars (level + 1) value ++ ',' :: prettyMembers level (next :: rest))

end

def compact (value : Json) : String :=
  String.ofList value.compactChars

def pretty (value : Json) : String :=
  String.ofList (value.prettyChars 0)

end ThreeAddress.Json
