import ThreeAddress.Json.Printer
import ThreeAddress.Json.Reader

/-! Strings as they are written: escapes are read as the characters they stand for, and what no
escape touches stands for itself.
-/

namespace ThreeAddress.Json

theorem hexValue?_hexDigit {n : Nat} (digit : n < 16) : hexValue? (hexDigit n) = some n := by
  decide +revert

/-- The four digits of a control character's escape stand for its code point. -/
theorem hexQuad?_hexDigits {n : Nat} (control : n < 0x20)
    : hexQuad? '0' '0' (hexDigit (n / 16)) (hexDigit (n % 16)) = some n := by
  have zero : hexValue? '0' = some 0 := rfl
  simp only [hexQuad?, zero, hexValue?_hexDigit (show n / 16 < 16 by omega),
    hexValue?_hexDigit (show n % 16 < 16 by omega), Option.bind_eq_bind, Option.bind_some]
  congr 1
  omega

theorem stringUnits?_shortEscape {c escaped : Char} (short : shortEscape? c = some escaped)
    (rest : List Char)
    : stringUnits? ('\\' :: c :: rest)
      = (stringUnits? rest).map fun (units, rest) => (escaped.toNat :: units, rest) := by
  have notNumeric : c ≠ 'u' := by
    rintro rfl
    cases short
  rw [stringUnits?, short]
  · cases stringUnits? rest <;> rfl
  · intro _ _ _ _ _ numeric
    exact absurd numeric notNumeric

theorem stringUnits?_plain {c : Char} (notQuote : c ≠ '"') (notBackslash : c ≠ '\\')
    (notControl : ¬c.toNat < 0x20) (rest : List Char)
    : stringUnits? (c :: rest)
      = (stringUnits? rest).map fun (units, rest) => (c.toNat :: units, rest) := by
  rw [stringUnits?, if_neg notControl]
  · cases stringUnits? rest <;> rfl
  · exact notQuote
  · intro _ _ _ _ _ backslash
    exact absurd backslash notBackslash
  · intro _ _ backslash
    exact absurd backslash notBackslash

/-- A written character is read as its code point, whatever follows it. -/
theorem stringUnits?_escape (c : Char) (rest : List Char)
    : stringUnits? (escape c ++ rest)
      = (stringUnits? rest).map fun (units, rest) => (c.toNat :: units, rest) := by
  unfold escape
  split
  case h_8 notQuote notBackslash _ _ _ _ _ =>
    split
    next control =>
      simp only [List.cons_append, List.nil_append, stringUnits?, hexQuad?_hexDigits control]
      cases stringUnits? rest <;> rfl
    next notControl => exact stringUnits?_plain notQuote notBackslash notControl rest
  all_goals exact stringUnits?_shortEscape rfl rest

/-- A written text is read as its code points, up to the quote that ends it. -/
theorem stringUnits?_flatMap_escape (text rest : List Char)
    : stringUnits? (text.flatMap escape ++ '"' :: rest) = some (text.map Char.toNat, rest) := by
  induction text with
  | nil => rfl
  | cons c text ih =>
      rw [List.flatMap_cons, List.append_assoc, stringUnits?_escape, ih]
      rfl

/-- No character is half of a surrogate pair. -/
theorem not_isSurrogate (c : Char)
    : isHighSurrogate c.toNat = false ∧ isLowSurrogate c.toNat = false := by
  have valid : c.toNat < 0xD800 ∨ 0xDFFF < c.toNat ∧ c.toNat < 0x110000 := c.valid
  simp only [isHighSurrogate, isLowSurrogate, Bool.and_eq_false_imp, decide_eq_true_eq,
    decide_eq_false_iff_not]
  omega

/-- The code points of characters are joined to these characters. -/
theorem joinUnits?_toNat (text : List Char) : joinUnits? (text.map Char.toNat) = some text := by
  induction text with
  | nil => rfl
  | cons c rest ih =>
      obtain ⟨notHigh, notLow⟩ := not_isSurrogate c
      cases rest with
      | nil => simp [joinUnits?, notHigh, notLow]
      | cons next rest =>
          rw [List.map_cons] at ih
          simp [joinUnits?, notHigh, notLow, ih]

/-- A written string is read as one token, whatever follows it. -/
theorem token?_quoted (text : String) (rest : List Char)
    : token? (quoted text ++ rest) = some (.string (some text), rest) := by
  have inside := stringUnits?_flatMap_escape text.toList rest
  simp only [quoted, List.cons_append, List.append_assoc, List.nil_append, token?, inside,
    Option.map_some, joinUnits?_toNat, String.ofList_toList]

end ThreeAddress.Json
