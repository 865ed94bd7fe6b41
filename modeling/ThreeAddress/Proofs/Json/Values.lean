import ThreeAddress.Proofs.Json.Tokens

/-! Reading a value back from its tokens, and so from the texts it is written as. -/

namespace ThreeAddress.Json

/-- The tokens of a value start with none that closes an array or object. -/
theorem exists_head_tokens (value : Json)
    : ∃ token rest, value.tokens = token :: rest ∧ token ≠ .closeBracket ∧ token ≠ .closeBrace := by
  cases value <;> exact ⟨_, _, rfl, by simp, by simp⟩

theorem valueWithin_openBracket {fuel : Nat} {token : Token} {tokens : List Token}
    (notEmpty : token ≠ .closeBracket)
    : valueWithin (fuel + 1) (.openBracket :: token :: tokens)
      = (itemsWithin fuel (token :: tokens)).map fun (items, rest) => (.array items, rest) := by
  rw [valueWithin]
  intro rest shape
  cases shape
  exact notEmpty rfl

theorem valueWithin_openBrace {fuel : Nat} {token : Token} {tokens : List Token}
    (notEmpty : token ≠ .closeBrace)
    : valueWithin (fuel + 1) (.openBrace :: token :: tokens)
      = (membersWithin fuel (token :: tokens)).map fun (members, rest) =>
        (.object members, rest) := by
  rw [valueWithin]
  intro rest shape
  cases shape
  exact notEmpty rfl

/-- The tokens of items do not start with the bracket that closes them. -/
theorem exists_head_itemTokens (item : Json) (items : List Json)
    : ∃ token rest, itemTokens (item :: items) = token :: rest ∧ token ≠ .closeBracket := by
  obtain ⟨token, rest, shape, notBracket, _⟩ := exists_head_tokens item
  cases items <;> simp only [itemTokens, shape] <;> exact ⟨_, _, rfl, notBracket⟩

theorem exists_head_memberTokens (member : Option String × Json)
    (members : List (Option String × Json))
    : ∃ token rest, memberTokens (member :: members) = token :: rest ∧ token ≠ .closeBrace := by
  cases members <;> exact ⟨_, _, rfl, by simp⟩

mutual

/-- One step per token is enough to read a value, whatever follows it. -/
theorem valueWithin_tokens : ∀ {value : Json} {fuel : Nat} (rest : List Token),
    value.tokens.length ≤ fuel
    → valueWithin fuel (value.tokens ++ rest) = some (value, rest)
  | null, fuel, rest, _ => by cases fuel <;> rfl
  | bool _, fuel, rest, _ => by cases fuel <;> rfl
  | number _, fuel, rest, _ => by cases fuel <;> rfl
  | string _, fuel, rest, _ => by cases fuel <;> rfl
  | array [], fuel, rest, _ => by cases fuel <;> rfl
  | object [], fuel, rest, _ => by cases fuel <;> rfl
  | array (_ :: _), 0, _, enough => by cases enough
  | object (_ :: _), 0, _, enough => by cases enough
  | array (item :: items), fuel + 1, rest, enough => by
      obtain ⟨token, later, shape, notBracket⟩ := exists_head_itemTokens item items
      have inside := itemsWithin_tokens rest (Nat.le_of_succ_le_succ enough)
      simp only [tokens, shape, List.cons_append] at inside ⊢
      rw [valueWithin_openBracket notBracket, inside]
      rfl
  | object (member :: members), fuel + 1, rest, enough => by
      obtain ⟨token, later, shape, notBrace⟩ := exists_head_memberTokens member members
      have inside := membersWithin_tokens rest (Nat.le_of_succ_le_succ enough)
      simp only [tokens, shape, List.cons_append] at inside ⊢
      rw [valueWithin_openBrace notBrace, inside]
      rfl

theorem itemsWithin_tokens : ∀ {item : Json} {items : List Json} {fuel : Nat} (rest : List Token),
    (itemTokens (item :: items)).length ≤ fuel
    → itemsWithin fuel (itemTokens (item :: items) ++ rest) = some (item :: items, rest)
  | item, items, 0, _, enough => by
      obtain ⟨token, later, shape, _⟩ := exists_head_itemTokens item items
      rw [shape] at enough
      cases enough
  | item, [], fuel + 1, rest, enough => by
      simp only [itemTokens, List.length_append, List.length_singleton] at enough
      rw [itemsWithin, itemTokens, List.append_assoc, valueWithin_tokens _ (by omega)]
      rfl
  | item, next :: items, fuel + 1, rest, enough => by
      simp only [itemTokens, List.length_append, List.length_cons] at enough
      rw [itemsWithin, itemTokens, List.append_assoc, valueWithin_tokens _ (by omega)]
      simp only [List.cons_append, Option.bind_eq_bind, Option.bind_some,
        itemsWithin_tokens rest (show (itemTokens (next :: items)).length ≤ fuel by omega)]

theorem membersWithin_tokens : ∀ {member : Option String × Json}
    {members : List (Option String × Json)} {fuel : Nat} (rest : List Token),
    (memberTokens (member :: members)).length ≤ fuel
    → membersWithin fuel (memberTokens (member :: members) ++ rest)
      = some (member :: members, rest)
  | member, members, 0, _, enough => by
      obtain ⟨token, later, shape, _⟩ := exists_head_memberTokens member members
      rw [shape] at enough
      cases enough
  | (name, value), [], fuel + 1, rest, enough => by
      simp only [memberTokens, List.length_cons, List.length_append] at enough
      simp only [memberTokens, List.cons_append, List.append_assoc, membersWithin]
      rw [valueWithin_tokens _ (by omega)]
      rfl
  | (name, value), next :: members, fuel + 1, rest, enough => by
      simp only [memberTokens, List.length_cons, List.length_append] at enough
      simp only [memberTokens, List.cons_append, List.append_assoc, membersWithin]
      rw [valueWithin_tokens _ (by omega)]
      simp only [Option.bind_eq_bind, Option.bind_some,
        membersWithin_tokens rest (show (memberTokens (next :: members)).length ≤ fuel by omega)]

end

/-- The tokens of a value make up that value. -/
theorem ofTokens?_tokens (value : Json) : ofTokens? value.tokens = some value := by
  have whole := valueWithin_tokens [] (show value.tokens.length ≤ 2 * value.tokens.length by omega)
  rw [List.append_nil] at whole
  rw [ofTokens?, whole]

variable {room : Nat} {value : Json}

/-- A text that spells the tokens of a value is read as that value. -/
theorem parse?_of_spells {text : List Char} (spells : Spells text value.tokens)
    : parse? (String.ofList text) = some value := by
  rw [parse?, String.toList_ofList, spells.tokens?_eq, Option.bind_some, ofTokens?_tokens]

/-- What can be held whole is read back from one line. -/
theorem parse?_compact (held : value.isHoldable room) : parse? value.compact = some value :=
  parse?_of_spells (spells_compactChars held)

/-- What can be held whole is read back from its indented text. -/
theorem parse?_pretty (held : value.isHoldable room) : parse? value.pretty = some value :=
  parse?_of_spells (spells_prettyChars held)

end ThreeAddress.Json
