import ThreeAddress.Json.Record
import ThreeAddress.Proofs.Json.Numerals
import ThreeAddress.Proofs.Json.Strings

/-! The tokens of a written value. Blanks and line breaks are for people: in one line or indented,
a value is written as the same tokens.
-/

namespace ThreeAddress.Json

-----------------------------------------------------------------------------------------
-- Reading tokens
-----------------------------------------------------------------------------------------

/-- The closing quote at least is taken. -/
theorem length_lt_of_stringUnits? {text rest : List Char} {units : List Nat}
    (read : stringUnits? text = some (units, rest))
    : rest.length < text.length := by
  fun_induction stringUnits? text generalizing units with
  | case1 => cases read
  | case2 =>
      cases read
      exact Nat.lt_succ_self _
  | case3 a b c d later ih =>
      simp only [Option.bind_eq_bind, Option.bind_eq_some_iff] at read
      obtain ⟨unit, _, ⟨units, rest⟩, found, ⟨⟩⟩ := read
      exact (ih found).trans (by simp only [List.length_cons]; omega)
  | case4 c later _ ih =>
      simp only [Option.bind_eq_bind, Option.bind_eq_some_iff] at read
      obtain ⟨escaped, _, ⟨units, rest⟩, found, ⟨⟩⟩ := read
      exact (ih found).trans (by simp only [List.length_cons]; omega)
  | case5 => cases read
  | case6 c later _ _ _ _ ih =>
      simp only [Option.bind_eq_bind, Option.bind_eq_some_iff] at read
      obtain ⟨⟨units, rest⟩, found, ⟨⟩⟩ := read
      exact Nat.lt_succ_of_lt (ih found)

theorem exists_of_numeral? {text : List Char} {token : Token} (read : numeral? text = some token)
    : ∃ c rest, text = c :: rest ∧ (c = '-' ∨ c.isDigit) := by
  obtain ⟨n, literal, _⟩ := Option.map_eq_some_iff.mp read
  exact Numeral.exists_head_of_ofChars? literal

/-- Every token takes a character. -/
theorem length_lt_of_token? {text rest : List Char} {token : Token}
    (read : token? text = some (token, rest))
    : rest.length < text.length := by
  unfold token? at read
  split at read
  case h_7 inside =>
    obtain ⟨⟨units, later⟩, found, ⟨⟩⟩ := Option.map_eq_some_iff.mp read
    exact Nat.lt_succ_of_lt (length_lt_of_stringUnits? found)
  case h_11 =>
    obtain ⟨found, numeral, ⟨⟩⟩ := Option.map_eq_some_iff.mp read
    obtain ⟨c, digits, literal, _⟩ := exists_of_numeral? numeral
    have whole := congrArg List.length
      (List.takeWhile_append_dropWhile (p := isNumeralChar) (l := text))
    rw [literal, List.length_append, List.length_cons] at whole
    omega
  all_goals
    cases read
    simp only [List.length_cons]
    omega

/-- One step per character is enough, so any more do not matter. -/
theorem tokensWithin_congr {fuel fuel' : Nat} {text : List Char} (enough : text.length ≤ fuel)
    (enough' : text.length ≤ fuel')
    : tokensWithin fuel text = tokensWithin fuel' text := by
  induction fuel generalizing fuel' text with
  | zero =>
      obtain rfl := List.eq_nil_of_length_eq_zero (Nat.le_zero.mp enough)
      cases fuel' <;> rfl
  | succ fuel ih =>
      cases text with
      | nil => cases fuel' <;> rfl
      | cons c rest =>
          cases fuel' with
          | zero => cases enough'
          | succ fuel' =>
              simp only [List.length_cons, Nat.add_le_add_iff_right] at enough enough'
              simp only [tokensWithin]
              split
              · exact ih enough enough'
              · cases read : token? (c :: rest) with
                | none => rfl
                | some found =>
                    obtain ⟨token, later⟩ := found
                    have shorter := length_lt_of_token? read
                    simp only [List.length_cons] at shorter
                    simp only [Option.bind_eq_bind, Option.bind_some]
                    rw [ih (by omega : later.length ≤ fuel) (by omega : later.length ≤ fuel')]

theorem tokens?_nil : tokens? [] = some [] :=
  rfl

theorem tokens?_blank {c : Char} (blank : isBlank c) (rest : List Char)
    : tokens? (c :: rest) = tokens? rest := by
  simp only [tokens?, List.length_cons, tokensWithin, blank, if_true]

theorem tokens?_token {c : Char} {text rest : List Char} {token : Token}
    (notBlank : isBlank c = false) (read : token? (c :: text) = some (token, rest))
    : tokens? (c :: text) = (tokens? rest).map (token :: ·) := by
  have shorter := length_lt_of_token? read
  simp only [List.length_cons] at shorter
  have enough : tokensWithin text.length rest = tokensWithin rest.length rest :=
    tokensWithin_congr (by omega) (Nat.le_refl _)
  simp only [tokens?, List.length_cons, tokensWithin, notBlank, read, enough, Bool.false_eq_true,
    if_false, Option.bind_eq_bind, Option.bind_some]
  cases tokensWithin rest.length rest <;> rfl

-----------------------------------------------------------------------------------------
-- Texts that spell tokens
-----------------------------------------------------------------------------------------

/-- The text is not the rest of a number. -/
def Delimited (text : List Char) : Prop :=
  ∀ c ∈ text.head?, isNumeralChar c = false

/-- The text is read as the tokens, in front of anything that is not the rest of a number. -/
def Spells (text : List Char) (tokens : List Token) : Prop :=
  ∀ rest, Delimited rest → tokens? (text ++ rest) = (tokens? rest).map (tokens ++ ·)

section Spelling

variable {c : Char} {text later : List Char} {token : Token} {tokens tokens' : List Token}

theorem spells_nil : Spells [] [] := by
  intro rest _
  simp

/-- Nothing need follow the text. -/
theorem Spells.tokens?_eq (spells : Spells text tokens) : tokens? text = some tokens := by
  have alone := spells [] (by simp [Delimited])
  simpa [tokens?_nil] using alone

theorem Spells.blank (spells : Spells text tokens) (blank : isBlank c)
    : Spells (c :: text) tokens := by
  intro rest delimited
  rw [List.cons_append, tokens?_blank blank, spells rest delimited]

/-- A text in front of one that starts like no number. -/
theorem Spells.append (spells : Spells text tokens) (after : Spells (c :: later) tokens')
    (delimiter : isNumeralChar c = false)
    : Spells (text ++ c :: later) (tokens ++ tokens') := by
  intro rest delimited
  rw [List.append_assoc, spells _ (by simpa [Delimited] using delimiter), after rest delimited,
    Option.map_map]
  simp only [Function.comp_def, List.append_assoc]

/-- What is read as one token spells it. -/
theorem spells_token (notBlank : isBlank c = false)
    (read : ∀ rest, Delimited rest → token? (c :: text ++ rest) = some (token, rest))
    : Spells (c :: text) [token] := by
  intro rest delimited
  exact tokens?_token notBlank (read rest delimited)

/-- A mark is read alone, whatever follows it. -/
theorem Spells.mark (spells : Spells text tokens) (notBlank : isBlank c = false)
    (read : ∀ rest, token? (c :: rest) = some (token, rest))
    : Spells (c :: text) (token :: tokens) := by
  intro rest delimited
  rw [List.cons_append, tokens?_token notBlank (read _), spells rest delimited, Option.map_map]
  rfl

theorem spells_quoted (text : String) : Spells (quoted text) [.string (some text)] :=
  spells_token rfl fun rest _ => token?_quoted text rest

/-- A minus sign or a digit begins a number and no other token. -/
theorem token?_numeral (leading : c = '-' ∨ c.isDigit) (text : List Char)
    : token? (c :: text)
      = (numeral? ((c :: text).takeWhile isNumeralChar)).map fun token =>
        (token, (c :: text).dropWhile isNumeralChar) := by
  rw [token?.eq_def]
  split
  case h_11 => rfl
  all_goals
    rename_i shape
    cases shape
    exact absurd leading (by decide)

theorem isBlank_of_leading (leading : c = '-' ∨ c.isDigit) : isBlank c = false := by
  rw [← Bool.not_eq_true]
  intro blank
  simp only [isBlank, Bool.or_eq_true, beq_iff_eq] at blank
  rcases blank with ((rfl | rfl) | rfl) | rfl <;> exact absurd leading (by decide)

theorem takeWhile_delimited {rest : List Char} (delimited : Delimited rest)
    : rest.takeWhile isNumeralChar = [] ∧ rest.dropWhile isNumeralChar = rest := by
  cases rest with
  | nil => exact ⟨rfl, rfl⟩
  | cons c rest =>
      have delimiter := delimited c rfl
      simp [delimiter]

/-- A numeral is read whole in front of anything that is not the rest of it. -/
theorem spells_number {literal : String} (ranged : hasRange literal)
    : Spells literal.toList [.number literal] := by
  unfold hasRange at ranged
  split at ranged
  next n read =>
    obtain ⟨c, text, shape, leading⟩ := Numeral.exists_head_of_ofChars? read
    have numeral := Numeral.isNumeralChar_of_ofChars? read
    rw [shape] at numeral ⊢
    refine spells_token (isBlank_of_leading leading) fun rest delimited => ?_
    obtain ⟨notTaken, left⟩ := takeWhile_delimited delimited
    rw [List.cons_append, token?_numeral leading, ← List.cons_append,
      List.takeWhile_append_of_pos numeral, List.dropWhile_append_of_pos numeral, notTaken, left,
      List.append_nil, ← shape, numeral?, read]
    simp
  next => cases ranged

end Spelling

-----------------------------------------------------------------------------------------
-- Written values
-----------------------------------------------------------------------------------------

mutual

/-- The tokens of a value. -/
def tokens : Json → List Token
  | null => [.null]
  | bool value => [.bool value]
  | number literal => [.number literal]
  | string value => [.string value]
  | array items => .openBracket :: itemTokens items
  | object members => .openBrace :: memberTokens members

/-- The tokens of items, with the closing bracket. -/
def itemTokens : List Json → List Token
  | [] => [.closeBracket]
  | [item] => item.tokens ++ [.closeBracket]
  | item :: next :: rest => item.tokens ++ .comma :: itemTokens (next :: rest)

/-- The tokens of members, with the closing brace. -/
def memberTokens : List (Option String × Json) → List Token
  | [] => [.closeBrace]
  | [(name, value)] => .string name :: .colon :: (value.tokens ++ [.closeBrace])
  | (name, value) :: next :: rest =>
    .string name :: .colon :: (value.tokens ++ .comma :: memberTokens (next :: rest))

end

theorem spells_mark {c : Char} {token : Token} (notBlank : isBlank c = false)
    (read : ∀ rest, token? (c :: rest) = some (token, rest))
    : Spells [c] [token] :=
  spells_nil.mark notBlank read

/-- A name in front of what starts with a colon. -/
theorem spells_name {name : Option String} (present : name.isSome) {c : Char} {later : List Char}
    {tokens : List Token} (after : Spells (c :: later) tokens)
    (delimiter : isNumeralChar c = false)
    : Spells (quotedOrEmpty name ++ c :: later) (.string name :: tokens) := by
  cases name with
  | none => cases present
  | some name => exact (spells_quoted name).append after delimiter

mutual

/-- One line spells the tokens of a value, by mutual induction on values, items and members. What
follows a value is a comma or a bracket, so it ends a number.
-/
theorem spells_compactChars {room : Nat} : ∀ {value : Json}, value.isHoldable room
    → Spells value.compactChars value.tokens
  | null, _ => spells_token rfl fun _ _ => rfl
  | bool true, _ => spells_token rfl fun _ _ => rfl
  | bool false, _ => spells_token rfl fun _ _ => rfl
  | number _, ranged => spells_number ranged
  | string (some text), _ => spells_quoted text
  | array items, held => by
      simp only [isHoldable, Bool.and_eq_true] at held
      exact (spells_compactItems held.2).mark rfl fun _ => rfl
  | object members, held => by
      simp only [isHoldable, Bool.and_eq_true] at held
      exact (spells_compactMembers held.2).mark rfl fun _ => rfl

theorem spells_compactItems {room : Nat} : ∀ {items : List Json}, areHoldable room items
    → Spells (compactItems items) (itemTokens items)
  | [], _ => spells_mark rfl fun _ => rfl
  | [item], held => by
      simp only [areHoldable, Bool.and_eq_true] at held
      exact (spells_compactChars held.1).append (spells_mark rfl fun _ => rfl) rfl
  | item :: next :: rest, held => by
      rw [areHoldable, Bool.and_eq_true] at held
      have later : Spells (',' :: compactItems (next :: rest))
          (.comma :: itemTokens (next :: rest)) :=
        (spells_compactItems held.2).mark rfl fun _ => rfl
      exact (spells_compactChars held.1).append later rfl

theorem spells_compactMembers {room : Nat} : ∀ {members : List (Option String × Json)},
    areHoldableMembers room members
    → Spells (compactMembers members) (memberTokens members)
  | [], _ => spells_mark rfl fun _ => rfl
  | [(name, value)], held => by
      simp only [areHoldableMembers, Bool.and_eq_true] at held
      have content : Spells (value.compactChars ++ ['}']) (value.tokens ++ [.closeBrace]) :=
        (spells_compactChars held.1.2).append (spells_mark rfl fun _ => rfl) rfl
      exact spells_name held.1.1 (content.mark rfl fun _ => rfl) rfl
  | (name, value) :: next :: rest, held => by
      rw [areHoldableMembers, Bool.and_eq_true, Bool.and_eq_true] at held
      have later : Spells (',' :: compactMembers (next :: rest))
          (.comma :: memberTokens (next :: rest)) :=
        (spells_compactMembers held.2).mark rfl fun _ => rfl
      have content := (spells_compactChars held.1.2).append later rfl
      exact spells_name held.1.1 (content.mark rfl fun _ => rfl) rfl

end

/-- A line break and the indentation after it are blanks. -/
theorem Spells.newline {text : List Char} {tokens : List Token} (spells : Spells text tokens)
    (level : Nat)
    : Spells (newline level ++ text) tokens := by
  refine Spells.blank ?_ rfl
  induction 2 * level with
  | zero => exact spells
  | succ n ih => exact ih.blank rfl

mutual

/-- Several lines spell the same tokens, whatever the level. Here a line break may follow a value.
-/
theorem spells_prettyChars {room : Nat} : ∀ {value : Json} {level : Nat}, value.isHoldable room
    → Spells (value.prettyChars level) value.tokens
  | null, _, _ => spells_token rfl fun _ _ => rfl
  | bool true, _, _ => spells_token rfl fun _ _ => rfl
  | bool false, _, _ => spells_token rfl fun _ _ => rfl
  | number _, _, ranged => spells_number ranged
  | string (some text), _, _ => spells_quoted text
  | array [], _, _ => (spells_mark rfl fun _ => rfl).mark rfl fun _ => rfl
  | object [], _, _ => (spells_mark rfl fun _ => rfl).mark rfl fun _ => rfl
  | array (item :: rest), level, held => by
      simp only [isHoldable, Bool.and_eq_true] at held
      exact (spells_prettyItems held.2).mark rfl fun _ => rfl
  | object (member :: rest), level, held => by
      simp only [isHoldable, Bool.and_eq_true] at held
      exact (spells_prettyMembers held.2).mark rfl fun _ => rfl

theorem spells_prettyItems {room : Nat} : ∀ {items : List Json} {level : Nat},
    areHoldable room items
    → Spells (prettyItems level items) (itemTokens items)
  | [], level, _ => (spells_mark rfl fun _ => rfl).newline level
  | [item], level, held => by
      simp only [areHoldable, Bool.and_eq_true] at held
      have closing : Spells (newline level ++ [']']) [.closeBracket] :=
        (spells_mark rfl fun _ => rfl).newline level
      simp only [prettyItems, List.append_assoc]
      exact ((spells_prettyChars held.1).append closing rfl).newline (level + 1)
  | item :: next :: rest, level, held => by
      rw [areHoldable, Bool.and_eq_true] at held
      have later : Spells (',' :: prettyItems level (next :: rest))
          (.comma :: itemTokens (next :: rest)) :=
        (spells_prettyItems held.2).mark rfl fun _ => rfl
      simp only [prettyItems, List.append_assoc]
      exact ((spells_prettyChars held.1).append later rfl).newline (level + 1)

theorem spells_prettyMembers {room : Nat} : ∀ {members : List (Option String × Json)}
    {level : Nat}, areHoldableMembers room members
    → Spells (prettyMembers level members) (memberTokens members)
  | [], level, _ => (spells_mark rfl fun _ => rfl).newline level
  | [(name, value)], level, held => by
      simp only [areHoldableMembers, Bool.and_eq_true] at held
      have closing : Spells (newline level ++ ['}']) [.closeBrace] :=
        (spells_mark rfl fun _ => rfl).newline level
      have content : Spells (' ' :: (value.prettyChars (level + 1) ++ (newline level ++ ['}'])))
          (value.tokens ++ [.closeBrace]) :=
        Spells.blank ((spells_prettyChars held.1.2).append closing rfl) rfl
      simp only [prettyMembers, List.append_assoc]
      exact (spells_name held.1.1 (content.mark rfl fun _ => rfl) rfl).newline (level + 1)
  | (name, value) :: next :: rest, level, held => by
      rw [areHoldableMembers, Bool.and_eq_true, Bool.and_eq_true] at held
      have later : Spells (',' :: prettyMembers level (next :: rest))
          (.comma :: memberTokens (next :: rest)) :=
        (spells_prettyMembers held.2).mark rfl fun _ => rfl
      have content : Spells
          (' ' :: (value.prettyChars (level + 1) ++ ',' :: prettyMembers level (next :: rest)))
          (value.tokens ++ .comma :: memberTokens (next :: rest)) :=
        Spells.blank ((spells_prettyChars held.1.2).append later rfl) rfl
      simp only [prettyMembers, List.append_assoc]
      exact (spells_name held.1.1 (content.mark rfl fun _ => rfl) rfl).newline (level + 1)

end

end ThreeAddress.Json
