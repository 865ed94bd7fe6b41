import ThreeAddress.Proofs.Execution.Arithmetic

/-! Folding with operands that are known in part. What is folded is what the operation computes
whatever the other operands are, and it stays the same when more operands are known.
-/

namespace ThreeAddress

-----------------------------------------------------------------------------------------
-- Knowing more operands
-----------------------------------------------------------------------------------------

/-- A literal that is known of an operand is still known. -/
def KeepsKnown (known known' : Option Literal) : Prop :=
  ∀ literal, known = some literal → known' = some literal

theorem KeepsKnown.bind_bool? {known known' : Option Literal} (keeps : KeepsKnown known known')
    {flag : Bool} (boolean : known.bind Literal.bool? = some flag)
    : known'.bind Literal.bool? = some flag := by
  obtain ⟨literal, rfl, same⟩ := Option.bind_eq_some_iff.mp boolean
  rw [keeps literal rfl, Option.bind_some, same]

/-- A conjunction that is known stays the same when more is known of its operands. -/
theorem foldAnd_of_keeps {left right left' right' : Option Bool} {result : Bool}
    (onLeft : ∀ flag, left = some flag → left' = some flag)
    (onRight : ∀ flag, right = some flag → right' = some flag)
    (folded : foldAnd left right = some result)
    : foldAnd left' right' = some result := by
  unfold foldAnd at folded
  split at folded
  case h_1 =>
    rw [onLeft false rfl]
    exact folded
  case h_2 =>
    rw [onRight false rfl]
    rcases left' with _ | _ | _ <;> exact folded
  case h_3 =>
    rw [onLeft true rfl, onRight true rfl]
    exact folded
  case h_4 => cases folded

/-- A disjunction that is known stays the same when more is known of its operands. -/
theorem foldOr_of_keeps {left right left' right' : Option Bool} {result : Bool}
    (onLeft : ∀ flag, left = some flag → left' = some flag)
    (onRight : ∀ flag, right = some flag → right' = some flag)
    (folded : foldOr left right = some result)
    : foldOr left' right' = some result := by
  unfold foldOr at folded
  split at folded
  case h_1 =>
    rw [onLeft true rfl]
    exact folded
  case h_2 =>
    rw [onRight true rfl]
    rcases left' with _ | _ | _ <;> exact folded
  case h_3 =>
    rw [onLeft false rfl, onRight false rfl]
    exact folded
  case h_4 => cases folded

/-- What is folded stays the same when more operands are known. -/
theorem foldConstant_of_keeps {code : Opcode} {operands operands' : List (Option Literal)}
    {result : Literal} (keeps : List.Forall₂ KeepsKnown operands operands')
    (folded : foldConstant code operands = some result)
    : foldConstant code operands' = some result := by
  unfold foldConstant at folded
  split at folded
  case h_1 operand =>
    obtain _ | ⟨same, _ | _⟩ := keeps
    rw [same operand rfl]
    exact folded
  case h_2 left right =>
    obtain _ | ⟨onLeft, _ | ⟨onRight, _ | _⟩⟩ := keeps
    obtain ⟨flag, both, rfl⟩ := Option.map_eq_some_iff.mp folded
    simp only [foldConstant, foldAnd_of_keeps (fun _ => onLeft.bind_bool?)
      (fun _ => onRight.bind_bool?) both, Option.map_some]
  case h_3 left right =>
    obtain _ | ⟨onLeft, _ | ⟨onRight, _ | _⟩⟩ := keeps
    obtain ⟨flag, both, rfl⟩ := Option.map_eq_some_iff.mp folded
    simp only [foldConstant, foldOr_of_keeps (fun _ => onLeft.bind_bool?)
      (fun _ => onRight.bind_bool?) both, Option.map_some]
  case h_4 left right notAnd notOr =>
    obtain _ | ⟨onLeft, _ | ⟨onRight, _ | _⟩⟩ := keeps
    rw [onLeft left rfl, onRight right rfl]
    rw [foldConstant]
    · exact folded
    · exact notAnd
    · exact notOr
  case h_5 => cases folded

-----------------------------------------------------------------------------------------
-- Integers
-----------------------------------------------------------------------------------------

/-- Folding gives a boolean for a comparison or for logic, and an integer for arithmetic, which is
on integers.
-/
theorem foldConstant_cases {code : Opcode} {constants : List (Option Literal)} {result : Literal}
    (folded : foldConstant code constants = some result)
    : (code.isComparison = true ∨ code.isLogic = true) ∧ (∃ flag, result = .bool flag)
      ∨ code.isArithmetic = true ∧ ∃ left right number,
        constants = [some (.int left), some (.int right)] ∧ result = .int number := by
  unfold foldConstant at folded
  split at folded
  case h_1 | h_2 | h_3 =>
    obtain ⟨flag, -, rfl⟩ := Option.map_eq_some_iff.mp folded
    exact .inl ⟨.inr rfl, _, rfl⟩
  case h_4 left right _ _ =>
    unfold Opcode.onLiterals? at folded
    split at folded
    · split at folded
      · next arithmetic =>
          obtain ⟨number, -, rfl⟩ := Option.map_eq_some_iff.mp folded
          exact .inr ⟨arithmetic, _, _, number, rfl, rfl⟩
      · obtain ⟨flag, compared, rfl⟩ := Option.map_eq_some_iff.mp folded
        refine .inl ⟨.inl ?_, flag, rfl⟩
        cases code <;> simp_all [Opcode.compareInts?, Opcode.isComparison]
    · obtain ⟨flag, compared, rfl⟩ := Option.map_eq_some_iff.mp folded
      refine .inl ⟨.inl ?_, flag, rfl⟩
      cases code <;> simp_all [Opcode.compareBools?, Opcode.isComparison]
    · cases folded
  case h_5 => cases folded

/-- Division gives the exact quotient, rounded toward zero, where there is one and it can be
represented. Of the quotients by other divisors than zero only that of the least integer by minus
one cannot.
-/
theorem onInts?_div_eq_some {x y z : Int64}
    : Opcode.div.onInts? x y = some z ↔ y.toInt ≠ 0 ∧ z.toInt = x.toInt.tdiv y.toInt := by
  have nonzero : y.toInt ≠ 0 ↔ y ≠ 0 := not_congr (Int64.toInt_inj (y := 0))
  rw [Opcode.onInts?]
  by_cases outside : x = Int64.minValue ∧ y = -1
  · obtain ⟨rfl, rfl⟩ := outside
    have small := z.toInt_lt
    have quotient : Int64.minValue.toInt.tdiv (-1 : Int64).toInt = 2 ^ 63 := by decide
    rw [if_pos (.inr ⟨rfl, rfl⟩), quotient]
    simp only [reduceCtorEq, false_iff, not_and]
    omega
  · have divided : (x / y).toInt = x.toInt.tdiv y.toInt := by
      by_cases least : x = Int64.minValue
      · exact Int64.toInt_div_of_ne_right x y fun minusOne => outside ⟨least, minusOne⟩
      · exact Int64.toInt_div_of_ne_left x y least
    rw [← divided, Int64.toInt_inj, nonzero]
    split
    · next refused => simp [refused.resolve_right outside]
    · next allowed => simp [(not_or.mp allowed).1, eq_comm]

/-- Only division of integers is folded, and exactly where the quotient can be represented. -/
theorem foldConstant_div_eq_some {operands : List (Option Literal)} {result : Literal}
    : foldConstant .div operands = some result
      ↔ ∃ x y z : Int64, operands = [some (.int x), some (.int y)] ∧ result = .int z
          ∧ y.toInt ≠ 0 ∧ z.toInt = x.toInt.tdiv y.toInt := by
  have onInts (x y : Int64)
      : foldConstant .div [some (.int x), some (.int y)] = (Opcode.div.onInts? x y).map .int :=
    rfl
  constructor
  · intro folded
    obtain ⟨boolean, -⟩ | ⟨-, x, y, z, rfl, rfl⟩ := foldConstant_cases folded
    · simp [Opcode.isComparison, Opcode.isLogic] at boolean
    · rw [onInts, Option.map_eq_some_iff] at folded
      obtain ⟨_, divided, same⟩ := folded
      obtain rfl := Literal.int.inj same
      exact ⟨x, y, _, rfl, rfl, onInts?_div_eq_some.mp divided⟩
  · rintro ⟨x, y, z, rfl, rfl, quotient⟩
    rw [onInts, onInts?_div_eq_some.mpr quotient, Option.map_some]

/-- Folding is sound, and monotone in what is known. A literal that it gives is what the operation
computes whatever the operands are of which nothing is known, as long as the operation is not stuck
on them, and folding gives the same literal when more operands are known. Sums, differences and
products of integers are always folded, to the exact results as 64 bits in two's complement
represent them. A quotient, rounded toward zero, is folded exactly where the divisor is not zero and
the quotient can be represented.
-/
theorem foldConstant_sound_and_monotone
    : (∀ (code : Opcode) (operands : List (Option Literal)) (result : Literal),
        foldConstant code operands = some result →
          (∀ (F : Type) (floats : Floats F) (literal : Option Literal) (values : List (Value F)),
            List.Forall₂ floats.Known operands values →
              ∀ value, floats.compute? code literal values = some value →
                value = floats.ofLiteral result)
            ∧ ∀ operands', List.Forall₂ KeepsKnown operands operands' →
              foldConstant code operands' = some result)
      ∧ (∀ x y : Int64,
          (∃ sum, foldConstant .add [some (.int x), some (.int y)] = some (.int sum)
              ∧ sum.toInt = (x.toInt + y.toInt).bmod Int64.size)
            ∧ (∃ rest, foldConstant .sub [some (.int x), some (.int y)] = some (.int rest)
              ∧ rest.toInt = (x.toInt - y.toInt).bmod Int64.size)
            ∧ ∃ product, foldConstant .mul [some (.int x), some (.int y)] = some (.int product)
              ∧ product.toInt = (x.toInt * y.toInt).bmod Int64.size)
      ∧ ∀ (operands : List (Option Literal)) (result : Literal),
        foldConstant .div operands = some result
          ↔ ∃ x y z : Int64, operands = [some (.int x), some (.int y)] ∧ result = .int z
              ∧ y.toInt ≠ 0 ∧ z.toInt = x.toInt.tdiv y.toInt := by
  refine ⟨fun code operands result folded => ⟨?sound, ?monotone⟩, fun x y => ?wrapping,
    fun operands result => foldConstant_div_eq_some⟩
  case sound =>
    intro F floats literal values known value computed
    exact floats.eq_of_foldConstant known folded computed
  case monotone =>
    intro operands' keeps
    exact foldConstant_of_keeps keeps folded
  case wrapping =>
    exact ⟨⟨x + y, rfl, Int64.toInt_add x y⟩, ⟨x - y, rfl, Int64.toInt_sub x y⟩,
      x * y, rfl, Int64.toInt_mul x y⟩

/-- A conjunction with a false operand is folded before the other one is known, which is right if
that is true, and it is folded still where that is not even a boolean. A quotient below zero is
rounded up.
-/
theorem foldConstant_sound_and_monotone_falseOperand
    : foldConstant .and [none, some (.bool false)] = some (.bool false)
      ∧ (Floats.mk id fun _ _ _ => none : Floats Double).compute? .and none
          [.bool true, .bool false] = some (.bool false)
      ∧ foldConstant .and [some (.int 5), some (.bool false)] = some (.bool false)
      ∧ foldConstant .div [some (.int 7), some (.int (-2))] = some (.int (-3)) := by
  obtain ⟨folds, -, quotients⟩ := foldConstant_sound_and_monotone
  obtain ⟨sound, stays⟩ := folds .and [none, some (.bool false)] (.bool false) rfl
  obtain ⟨value, computed⟩
      : ∃ value, (Floats.mk id fun _ _ _ => none : Floats Double).compute? .and none
          [.bool true, .bool false] = some value :=
    ⟨_, rfl⟩
  have unknown {α : Type} {P : α → Prop} : ∀ a : α, none = some a → P a := fun _ known =>
    nomatch known
  refine ⟨rfl, ?_, stays _ (.cons unknown (.cons (fun _ => id) .nil)),
    (quotients _ _).mpr ⟨7, -2, -3, rfl, rfl, by decide, by decide⟩⟩
  have known : (Floats.mk id fun _ _ _ => none : Floats Double).Known (some (.bool false))
      (.bool false) := by
    rintro _ ⟨⟩
    rfl
  rw [computed, sound Double _ none _ (.cons unknown (.cons known .nil)) value computed]
  rfl

end ThreeAddress
