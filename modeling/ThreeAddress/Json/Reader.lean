import ThreeAddress.Json.Numeral
import ThreeAddress.Json.Value

/-! Reading JSON text: characters are gathered into tokens and tokens into values. The grammar
is checked strictly; what a number or a string stands for is left to whoever reads the value.
-/

namespace ThreeAddress.Json

/-- A token of JSON text. -/
inductive Token where
  | openBrace
  | closeBrace
  | openBracket
  | closeBracket
  | colon
  | comma
  | null
  | bool (value : Bool)
  | number (literal : String)
  | string (value : Option String)
deriving DecidableEq, Repr

def hexValue? (c : Char) : Option Nat :=
  if c.isDigit then some (c.toNat - '0'.toNat)
  else if 'a' ≤ c ∧ c ≤ 'f' then some (c.toNat - 'a'.toNat + 10)
  else if 'A' ≤ c ∧ c ≤ 'F' then some (c.toNat - 'A'.toNat + 10)
  else none

/-- The number four hexadecimal digits stand for. -/
def hexQuad? (a b c d : Char) : Option Nat := do
  let a ← hexValue? a
  let b ← hexValue? b
  let c ← hexValue? c
  let d ← hexValue? d
  some (((a * 16 + b) * 16 + c) * 16 + d)

def shortEscape? : Char → Option Char
  | '"' => some '"'
  | '\\' => some '\\'
  | '/' => some '/'
  | 'b' => some '\x08'
  | 'f' => some '\x0c'
  | 'n' => some '\n'
  | 'r' => some '\r'
  | 't' => some '\t'
  | _ => none

/-- Reads the inside of a string up to its closing quote. The result lists code points, where
a numeric escape gives its 16-bit unit even when that is half of a pair.
-/
def stringUnits? : List Char → Option (List Nat × List Char)
  | [] => none
  | '"' :: rest => some ([], rest)
  | '\\' :: 'u' :: a :: b :: c :: d :: rest => do
    let unit ← hexQuad? a b c d
    let (units, rest) ← stringUnits? rest
    some (unit :: units, rest)
  | '\\' :: c :: rest => do
    let escaped ← shortEscape? c
    let (units, rest) ← stringUnits? rest
    some (escaped.toNat :: units, rest)
  | c :: rest =>
    if c.toNat < 0x20 then none
    else do
      let (units, rest) ← stringUnits? rest
      some (c.toNat :: units, rest)

def isHighSurrogate (unit : Nat) : Bool :=
  0xD800 ≤ unit && unit < 0xDC00

def isLowSurrogate (unit : Nat) : Bool :=
  0xDC00 ≤ unit && unit < 0xE000

/-- Joins pairs of surrogates; half a pair alone stands for no character. -/
def joinUnits? : List Nat → Option (List Char)
  | [] => some []
  | high :: low :: rest =>
    if isHighSurrogate high && isLowSurrogate low then
      (joinUnits? rest).map
        (Char.ofNat (0x10000 + (high - 0xD800) * 0x400 + (low - 0xDC00)) :: ·)
    else if isHighSurrogate high || isLowSurrogate high then none
    else (joinUnits? (low :: rest)).map (Char.ofNat high :: ·)
  | [unit] =>
    if isHighSurrogate unit || isLowSurrogate unit then none else some [Char.ofNat unit]

/-- The character may stand in a number literal. -/
def isNumeralChar (c : Char) : Bool :=
  c.isDigit || c == '-' || c == '+' || c == '.' || c == 'e' || c == 'E'

/-- The text as a number literal, if it is one. -/
def numeral? (text : List Char) : Option Token :=
  (Numeral.ofChars? text).map fun _ => .number (String.ofList text)

/-- Reads one token, which the first character begins, and returns the text after it. -/
def token? : List Char → Option (Token × List Char)
  | '{' :: rest => some (.openBrace, rest)
  | '}' :: rest => some (.closeBrace, rest)
  | '[' :: rest => some (.openBracket, rest)
  | ']' :: rest => some (.closeBracket, rest)
  | ':' :: rest => some (.colon, rest)
  | ',' :: rest => some (.comma, rest)
  | '"' :: rest =>
    (stringUnits? rest).map fun (units, rest) =>
      (.string ((joinUnits? units).map String.ofList), rest)
  | 'n' :: 'u' :: 'l' :: 'l' :: rest => some (.null, rest)
  | 't' :: 'r' :: 'u' :: 'e' :: rest => some (.bool true, rest)
  | 'f' :: 'a' :: 'l' :: 's' :: 'e' :: rest => some (.bool false, rest)
  | text =>
    (numeral? (text.takeWhile isNumeralChar)).map fun token =>
      (token, text.dropWhile isNumeralChar)

/-- The character separates tokens. -/
def isBlank (c : Char) : Bool :=
  c == ' ' || c == '\n' || c == '\t' || c == '\r'

/-- Reads tokens until the text ends; every token and every blank takes a character. -/
def tokensWithin : Nat → List Char → Option (List Token)
  | _, [] => some []
  | 0, _ :: _ => none
  | fuel + 1, c :: rest =>
    if isBlank c then tokensWithin fuel rest
    else do
      let (token, rest) ← token? (c :: rest)
      let tokens ← tokensWithin fuel rest
      some (token :: tokens)

/-- The tokens of a text. -/
def tokens? (text : List Char) : Option (List Token) :=
  tokensWithin text.length text

mutual

/-- Reads one value and returns the tokens after it. -/
def valueWithin : Nat → List Token → Option (Json × List Token)
  | _, .null :: rest => some (.null, rest)
  | _, .bool value :: rest => some (.bool value, rest)
  | _, .number literal :: rest => some (.number literal, rest)
  | _, .string value :: rest => some (.string value, rest)
  | _, .openBracket :: .closeBracket :: rest => some (.array [], rest)
  | fuel + 1, .openBracket :: rest =>
    (itemsWithin fuel rest).map fun (items, rest) => (.array items, rest)
  | _, .openBrace :: .closeBrace :: rest => some (.object [], rest)
  | fuel + 1, .openBrace :: rest =>
    (membersWithin fuel rest).map fun (members, rest) => (.object members, rest)
  | _, _ => none

/-- Reads the items of an array that has some, up to its closing bracket. -/
def itemsWithin : Nat → List Token → Option (List Json × List Token)
  | 0, _ => none
  | fuel + 1, tokens => do
    let (item, rest) ← valueWithin fuel tokens
    match rest with
    | .closeBracket :: rest => some ([item], rest)
    | .comma :: rest =>
      let (items, rest) ← itemsWithin fuel rest
      some (item :: items, rest)
    | _ => none

/-- Reads the members of an object that has some, up to its closing brace. -/
def membersWithin : Nat → List Token → Option (List (Option String × Json) × List Token)
  | fuel + 1, .string name :: .colon :: tokens => do
    let (value, rest) ← valueWithin fuel tokens
    match rest with
    | .closeBrace :: rest => some ([(name, value)], rest)
    | .comma :: rest =>
      let (members, rest) ← membersWithin fuel rest
      some ((name, value) :: members, rest)
    | _ => none
  | _, _ => none

end

/-- The value a list of tokens makes up. Two steps per token are enough: one to enter an array
or object and one per item or member.
-/
def ofTokens? (tokens : List Token) : Option Json :=
  match valueWithin (2 * tokens.length) tokens with
  | some (value, []) => some value
  | _ => none

/-- The value a text makes up, with nothing but blanks around it. -/
def parse? (text : String) : Option Json :=
  (tokens? text.toList).bind ofTokens?

end ThreeAddress.Json
