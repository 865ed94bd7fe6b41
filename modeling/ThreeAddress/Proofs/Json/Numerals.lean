import Mathlib.Data.List.TakeWhile
import ThreeAddress.Json.Reader
import ThreeAddress.Proofs.Number.Magnitudes

/-! Number literals as characters: what a literal is made of, and that every integer is written as
one that stands for it and is in range.
-/

namespace ThreeAddress.Numeral

open Json (isNumeralChar)

/-- A literal has digits before the point, and an exponent ends it. -/
theorem exists_of_ofChars? {text : List Char} {n : Numeral} (read : ofChars? text = some n)
    : (sign text).2.takeWhile Char.isDigit ≠ []
      ∧ ∃ fraction rest, fraction? ((sign text).2.dropWhile Char.isDigit) = some (fraction, rest)
        ∧ (rest = []
          ∨ ∃ c later exponent, rest = c :: later ∧ (c = 'e' ∨ c = 'E')
            ∧ exponentDigits? later = some exponent) := by
  simp only [ofChars?, guard, Option.bind_eq_bind, Option.bind_eq_some_iff] at read
  obtain ⟨_, whole, ⟨fraction, rest⟩, split, ending⟩ := read
  refine ⟨fun empty => by simp [empty] at whole, fraction, rest, split, ?_⟩
  cases rest with
  | nil => exact .inl rfl
  | cons c later =>
      simp only [Option.bind_eq_some_iff] at ending
      obtain ⟨_, mark, exponent, digits, _⟩ := ending
      refine .inr ⟨c, later, exponent, rfl, ?_, digits⟩
      by_contra other
      simp [not_or.mp other] at mark

-----------------------------------------------------------------------------------------
-- The characters of a literal
-----------------------------------------------------------------------------------------

theorem isNumeralChar_of_isDigit {c : Char} (digit : c.isDigit) : isNumeralChar c := by
  simp [isNumeralChar, digit]

theorem all_of_dropWhile {text : List Char}
    (rest : ∀ c ∈ text.dropWhile Char.isDigit, isNumeralChar c)
    : ∀ c ∈ text, isNumeralChar c := by
  intro c member
  rw [← List.takeWhile_append_dropWhile (p := Char.isDigit) (l := text)] at member
  rcases List.mem_append.mp member with digit | later
  · exact isNumeralChar_of_isDigit (List.mem_takeWhile_imp digit)
  · exact rest c later

theorem all_of_sign {text : List Char} (rest : ∀ c ∈ (sign text).2, isNumeralChar c)
    : ∀ c ∈ text, isNumeralChar c := by
  unfold sign at rest
  split at rest
  · exact List.forall_mem_cons.mpr ⟨rfl, rest⟩
  · exact rest

theorem all_of_fraction? {text digits later : List Char}
    (read : fraction? text = some (digits, later)) (rest : ∀ c ∈ later, isNumeralChar c)
    : ∀ c ∈ text, isNumeralChar c := by
  unfold fraction? at read
  split at read
  · simp only [Option.ite_none_left_eq_some, Option.some.injEq, Prod.mk.injEq] at read
    obtain ⟨_, _, rfl⟩ := read
    exact List.forall_mem_cons.mpr ⟨rfl, all_of_dropWhile rest⟩
  · cases read
    exact rest

theorem all_of_exponentDigits? {text : List Char} {exponent : Bool × List Char}
    (read : exponentDigits? text = some exponent)
    : ∀ c ∈ text, isNumeralChar c := by
  have all {digits : List Char} (found : ¬(digits.isEmpty || !digits.all Char.isDigit))
      : ∀ c ∈ digits, isNumeralChar c := fun c member => by
    simp only [Bool.or_eq_true, Bool.not_eq_true', not_or, Bool.not_eq_false] at found
    exact isNumeralChar_of_isDigit (List.all_eq_true.mp found.2 c member)
  unfold exponentDigits? at read
  split at read
  next parts =>
    split at parts <;> cases parts
    · exact List.forall_mem_cons.mpr ⟨rfl, all (Option.ite_none_left_eq_some.mp read).1⟩
    · exact List.forall_mem_cons.mpr ⟨rfl, all (Option.ite_none_left_eq_some.mp read).1⟩
    · exact all (Option.ite_none_left_eq_some.mp read).1

/-- Every character of a literal is one that literals are gathered by. -/
theorem isNumeralChar_of_ofChars? {text : List Char} {n : Numeral} (read : ofChars? text = some n)
    : ∀ c ∈ text, isNumeralChar c := by
  obtain ⟨_, fraction, rest, split, ending⟩ := exists_of_ofChars? read
  refine all_of_sign (all_of_dropWhile (all_of_fraction? split ?_))
  rcases ending with rfl | ⟨c, later, exponent, rfl, mark, digits⟩
  · exact List.forall_mem_nil _
  · refine List.forall_mem_cons.mpr ⟨?_, all_of_exponentDigits? digits⟩
    rcases mark with rfl | rfl <;> rfl

/-- A literal starts with a minus sign or a digit. -/
theorem exists_head_of_ofChars? {text : List Char} {n : Numeral} (read : ofChars? text = some n)
    : ∃ c rest, text = c :: rest ∧ (c = '-' ∨ c.isDigit) := by
  have whole := (exists_of_ofChars? read).1
  unfold sign at whole
  split at whole
  · exact ⟨'-', _, rfl, .inl rfl⟩
  · cases text with
    | nil => exact absurd rfl whole
    | cons c rest =>
        refine ⟨c, rest, rfl, .inr ?_⟩
        by_contra other
        exact whole (List.takeWhile_cons_of_neg other)

-----------------------------------------------------------------------------------------
-- Integers
-----------------------------------------------------------------------------------------

theorem digitsValue_decimalDigits (n : Nat) : digitsValue (decimalDigits n) = n := by
  have value := Nat.ofDigitChars_ten_toDigits (n := n)
  rwa [Nat.ofDigitChars_eq_foldl] at value

theorem isDigit_of_mem_decimalDigits {n : Nat} {c : Char} (member : c ∈ decimalDigits n)
    : c.isDigit :=
  Nat.isDigit_of_mem_toDigits (by decide) (by decide) member

/-- The digits of a positive number do not start with a zero. -/
theorem head?_decimalDigits {n : Nat} (positive : n ≠ 0) : (decimalDigits n).head? ≠ some '0' := by
  induction n using Nat.strongRecOn with
  | ind n ih =>
      rw [decimalDigits, Nat.toDigits_eq_if (by decide)]
      split
      · simpa using positive
      · have leading := ih (n / 10) (by omega) (by omega)
        rw [decimalDigits] at leading
        obtain ⟨c, rest, digits⟩ :=
          List.exists_cons_of_ne_nil (l := Nat.toDigits 10 (n / 10)) Nat.toDigits_ne_nil
        rw [digits] at leading ⊢
        exact leading

theorem decimalDigits_eq_zero_iff {n : Nat} : decimalDigits n = ['0'] ↔ n = 0 := by
  constructor
  · intro zero
    by_contra positive
    exact head?_decimalDigits positive (by rw [zero]; rfl)
  · rintro rfl
    rfl

/-- The literal an integer is written as. -/
def ofInt (n : Int) : Numeral where
  negative := n < 0
  whole := decimalDigits n.natAbs

theorem toList_toString (n : Int)
    : (toString n).toList
      = if n < 0 then '-' :: decimalDigits n.natAbs else decimalDigits n.natAbs := by
  rw [Int.toString_eq_repr, Int.repr_eq_if]
  split
  next notNegative =>
    have magnitude : n.toNat = n.natAbs := by omega
    rw [if_neg (by omega), Nat.toList_repr, magnitude, decimalDigits]
  next negative =>
    have magnitude : (-n).toNat = n.natAbs := by omega
    rw [if_pos (by omega), String.toList_append, Nat.toList_repr, magnitude, decimalDigits]
    rfl

/-- The sign of a literal is split off its digits. -/
theorem sign_toString (n : Int)
    : sign (toString n).toList = (decide (n < 0), decimalDigits n.natAbs) := by
  rw [toList_toString]
  split
  next negative => simp [sign, negative]
  next notNegative =>
    unfold sign
    split
    next rest digits =>
      have digit := isDigit_of_mem_decimalDigits (digits ▸ List.mem_cons_self : '-' ∈ _)
      exact absurd digit (by decide)
    next => simp [notNegative]

/-- What an integer is written as is a literal. -/
theorem ofChars?_toString (n : Int) : ofChars? (toString n).toList = some (ofInt n) := by
  have digits : ∀ c ∈ decimalDigits n.natAbs, c.isDigit := fun _ => isDigit_of_mem_decimalDigits
  have whole : (decimalDigits n.natAbs).takeWhile Char.isDigit = decimalDigits n.natAbs :=
    List.takeWhile_eq_self_iff.mpr digits
  have rest : (decimalDigits n.natAbs).dropWhile Char.isDigit = [] :=
    List.dropWhile_eq_nil_iff.mpr digits
  have shape : decimalDigits n.natAbs == ['0']
      || (!(decimalDigits n.natAbs).isEmpty && (decimalDigits n.natAbs).head? != some '0') := by
    by_cases zero : n.natAbs = 0
    · simp [decimalDigits_eq_zero_iff.mpr zero]
    · have nonempty : decimalDigits n.natAbs ≠ [] := Nat.toDigits_ne_nil
      simp [head?_decimalDigits zero, nonempty]
  simp only [ofChars?, sign_toString, whole, rest, shape, guard, if_true]
  rfl

/-- The literal stands for the integer. -/
theorem int?_ofInt (n : Int) : (ofInt n).int? = some n := by
  have notZero : ¬(n < 0 ∧ decimalDigits n.natAbs = ['0']) := by
    rw [decimalDigits_eq_zero_iff]
    omega
  simp only [int?, ofInt, digitsValue_decimalDigits]
  split
  next zero => exact absurd (by simpa using zero) notZero
  next =>
    split
    next negative =>
      have := of_decide_eq_true negative
      congr 1
      omega
    next notNegative =>
      have := of_decide_eq_false (Bool.eq_false_iff.mpr notNegative)
      congr 1
      omega

-----------------------------------------------------------------------------------------
-- Range
-----------------------------------------------------------------------------------------

theorem le_foldl_digits {digits : List Char} {start : Nat}
    : start ≤ digits.foldl (fun n c => 10 * n + digitValue c) start := by
  induction digits generalizing start with
  | nil => exact Nat.le_refl _
  | cons c rest ih =>
      rw [List.foldl_cons]
      exact Nat.le_trans (by omega) ih

/-- Digits that stand for a number of at most 64 bits are all taken into the significand. -/
theorem addWhole_eq {digits : List Char} {acc : Scaled}
    (fits : digits.foldl (fun n c => 10 * n + digitValue c) acc.digits ≤ wordLimit)
    : acc.addWhole digits
      = { acc with digits := digits.foldl (fun n c => 10 * n + digitValue c) acc.digits } := by
  induction digits generalizing acc with
  | nil => rfl
  | cons c rest ih =>
      rw [List.foldl_cons] at fits
      have next : 10 * acc.digits + digitValue c ≤ wordLimit := le_foldl_digits.trans fits
      rw [Scaled.addWhole, if_pos next, ih fits]
      rfl

/-- A literal without point and exponent is in range when its digits fit 64 bits. -/
theorem isSome_double? {n : Numeral} (noFraction : n.fraction = []) (noExponent : n.exponent = none)
    (fits : digitsValue n.whole ≤ wordLimit)
    : n.double?.isSome := by
  have whole : Scaled.addWhole {} n.whole = { digits := digitsValue n.whole } :=
    addWhole_eq fits
  have word : wordLimit < 2 ^ 64 := by decide
  simp only [double?, whole, noFraction, noExponent, Scaled.addFraction]
  exact Double.isSome_ofDecimal? (by omega) (le_refl 0)

end ThreeAddress.Numeral
