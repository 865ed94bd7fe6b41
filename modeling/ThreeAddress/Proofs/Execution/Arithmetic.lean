import Mathlib.Data.List.Permutation
import ThreeAddress.Proofs.Execution.Machine
import ThreeAddress.Simplify.Folding

/-! What pure operations compute on integers and booleans. Floating point numbers, and whatever
else a variable may hold, are left open. Folding agrees with these operations wherever it gives a
result.
-/

namespace ThreeAddress

/-- A value: an integer, a boolean, or anything else, such as a floating point number. -/
inductive Value (F : Type) where
  | int (value : Int64)
  | bool (value : Bool)
  | other (value : F)
deriving DecidableEq

/-- The value is an integer or a boolean. -/
def Value.IsScalar {F : Type} : Value F → Prop
  | int _ => True
  | bool _ => True
  | other _ => False

/-- The value is an integer or a boolean if it is declared to be one. -/
def Value.Fits {F : Type} (value : Value F) (ty : Option Ty) : Prop :=
  ty = some .int ∨ ty = some .bool → value.IsScalar

instance {F : Type} (value : Value F) : Decidable value.IsScalar :=
  match value with
  | .int _ => .isTrue trivial
  | .bool _ => .isTrue trivial
  | .other _ => .isFalse id

instance {F : Type} (value : Value F) (ty : Option Ty) : Decidable (value.Fits ty) :=
  inferInstanceAs (Decidable (ty = some .int ∨ ty = some .bool → value.IsScalar))

/-- What floating point literals stand for, and arithmetic and comparisons with an operand that is
neither an integer nor a boolean. An operation without a result is stuck.
-/
structure Floats (F : Type) where
  ofDouble : Double → F
  operate : Opcode → Value F → Value F → Option (Value F)

/-- The result of integer arithmetic before it wraps. Division is toward zero; it is stuck for a
zero divisor, and for the least integer divided by minus one.
-/
def Opcode.onIntegers? (code : Opcode) (x y : Int) : Option Int :=
  match code with
  | .add => some (x + y)
  | .sub => some (x - y)
  | .mul => some (x * y)
  | .div => if y = 0 ∨ (x = Int64.minValue.toInt ∧ y = -1) then none else some (x.tdiv y)
  | _ => none

/-- Whether a comparison of integers holds. -/
def Opcode.holds? (code : Opcode) (x y : Int) : Option Bool :=
  match code with
  | .eq => some (x = y)
  | .ne => some (x ≠ y)
  | .lt => some (x < y)
  | .le => some (x ≤ y)
  | .gt => some (x > y)
  | .ge => some (x ≥ y)
  | _ => none

/-- The result of an operation on two booleans, which have no order. -/
def Opcode.onBooleans? (code : Opcode) (x y : Bool) : Option Bool :=
  match code with
  | .eq => some (x = y)
  | .ne => some (x ≠ y)
  | .and => some (x ∧ y)
  | .or => some (x ∨ y)
  | _ => none

-----------------------------------------------------------------------------------------
-- Folding of integers and of booleans
-----------------------------------------------------------------------------------------

/-- Folding wraps at 64 bits the integers that arithmetic gives. -/
theorem Opcode.onInts?_eq (code : Opcode) (x y : Int64)
    : code.onInts? x y = (code.onIntegers? x.toInt y.toInt).map Int64.ofInt := by
  cases code
  case add => simp only [onInts?, onIntegers?, Option.map_some, Int64.ofInt_add, Int64.ofInt_toInt]
  case sub => simp only [onInts?, onIntegers?, Option.map_some, Int64.ofInt_sub, Int64.ofInt_toInt]
  case mul => simp only [onInts?, onIntegers?, Option.map_some, Int64.ofInt_mul, Int64.ofInt_toInt]
  case div =>
    have zero : y.toInt = 0 ↔ y = 0 := Int64.toInt_inj (y := 0)
    have least : x.toInt = Int64.minValue.toInt ↔ x = Int64.minValue := Int64.toInt_inj
    have minusOne : y.toInt = -1 ↔ y = -1 := Int64.toInt_inj (y := -1)
    have quotient : Int64.ofInt (x.toInt.tdiv y.toInt) = x / y := by
      simp only [Int64.ofInt_tdiv (Int64.le_toInt x) (Int64.toInt_le x) (Int64.le_toInt y)
        (Int64.toInt_le y), Int64.ofInt_toInt]
    simp only [onInts?, onIntegers?, zero, least, minusOne]
    split
    · rfl
    · simp only [Option.map_some, quotient]
  all_goals rfl

/-- Folding compares integers as they compare. -/
theorem Opcode.compareInts?_eq (code : Opcode) (x y : Int64)
    : code.compareInts? x y = code.holds? x.toInt y.toInt := by
  cases code <;>
    simp [compareInts?, holds?, Int64.lt_iff_toInt_lt, Int64.le_iff_toInt_le, ← Int64.toInt_inj,
      Bool.beq_eq_decide_eq, bne]

/-- Folding compares booleans as they compare. -/
theorem Opcode.compareBools?_sound {code : Opcode} {x y result : Bool}
    (folded : code.compareBools? x y = some result)
    : code.onBooleans? x y = some result := by
  cases code <;> simp_all [compareBools?, onBooleans?, Bool.beq_eq_decide_eq, bne]

namespace Floats

variable {F : Type} (floats : Floats F)

/-- The value a literal stands for. -/
def ofLiteral : Literal → Value F
  | .int value => .int value
  | .bool value => .bool value
  | .float value => .other (floats.ofDouble value)

/-- Operations on two operands. Integers wrap at 64 bits. An integer and a boolean go with no
operation, and logic goes with booleans only.
-/
def binary? (code : Opcode) : Value F → Value F → Option (Value F)
  | .int x, .int y =>
    ((code.onIntegers? x.toInt y.toInt).map fun z => .int (Int64.ofInt z)).or
      ((code.holds? x.toInt y.toInt).map .bool)
  | .bool x, .bool y => (code.onBooleans? x y).map .bool
  | .int _, .bool _ => none
  | .bool _, .int _ => none
  | x, y => if code.isArithmetic || code.isComparison then floats.operate code x y else none

/-- What a pure operation computes from its literal and its arguments. A constant is its literal,
whatever type is declared. A phi computes nothing, since it selects a value when its block is
entered.
-/
def compute? (code : Opcode) (literal : Option Literal) (values : List (Value F))
    : Option (Value F) :=
  match code, values with
  | .const, _ => literal.map floats.ofLiteral
  | .id, [value] => some value
  | .not, [.bool value] => some (.bool !value)
  | .phi, _ => none
  | code, [x, y] => floats.binary? code x y
  | _, _ => none

/-- Pure operations compute as above. All else, such as what calls return and which way branches go,
is as in another interpretation.
-/
def interpretation (effects : Interpretation (Value F)) : Interpretation (Value F) :=
  { effects with
    compute := fun code ty literal values =>
      if code.isPure then floats.compute? code literal values
      else effects.compute code ty literal values }

/-- Where operands may be given in either order, floating point operations do not depend on it. -/
def Symmetric : Prop :=
  ∀ code ∈ [Opcode.add, .mul, .eq, .ne], ∀ x y, floats.operate code x y = floats.operate code y x

variable {floats}

/-- A pure operation only computes. -/
theorem perform_of_isPure (effects : Interpretation (Value F)) {op : Operation}
    (pure : op.opcode.isPure = true) (values : List (Value F)) (trace : Trace (Value F))
    : (floats.interpretation effects).perform op values trace
      = (floats.compute? op.opcode op.value values).map (·, trace, .next) := by
  have computes : (floats.interpretation effects).compute op.opcode op.ty op.value values
      = floats.compute? op.opcode op.value values := if_pos pure
  cases code : op.opcode <;>
    simp_all [Interpretation.perform, Opcode.isPure, Opcode.isArithmetic, Opcode.isComparison,
      Opcode.isLogic, compute?]

-----------------------------------------------------------------------------------------
-- Two operands and their order
-----------------------------------------------------------------------------------------

/-- What an operation other than a constant computes from two operands. -/
theorem compute?_pair {code : Opcode} (other : code ≠ .const) (literal : Option Literal)
    (x y : Value F)
    : floats.compute? code literal [x, y] = floats.binary? code x y := by
  cases code
  case const => exact absurd rfl other
  case phi => cases x <;> cases y <;> rfl
  case not => simp only [compute?]
  all_goals rfl

/-- Only a constant depends on its literal. -/
theorem compute?_of_ne_const {code : Opcode} (other : code ≠ .const) (literal : Option Literal)
    (values : List (Value F))
    : floats.compute? code literal values = floats.compute? code none values := by
  match values with
  | [] => cases code <;> simp_all [compute?]
  | [value] => cases code <;> cases value <;> simp_all [compute?]
  | [x, y] => rw [compute?_pair other, compute?_pair other]
  | _ :: _ :: _ :: _ => cases code <;> simp_all [compute?]

/-- Commutative operations give the same result on swapped operands. -/
theorem Symmetric.binary?_comm (symmetric : floats.Symmetric) {code : Opcode}
    (commutes : code.isCommutative = true) (x y : Value F)
    : floats.binary? code x y = floats.binary? code y x := by
  have swap : (code.isArithmetic || code.isComparison) = true
      → floats.operate code x y = floats.operate code y x := by
    intro computes
    refine symmetric code ?_ x y
    cases code <;>
      simp_all [Opcode.isCommutative, Opcode.isArithmetic, Opcode.isComparison]
  have integers (x y : Int) : code.onIntegers? x y = code.onIntegers? y x := by
    cases code <;> simp_all [Opcode.isCommutative, Opcode.onIntegers?, Int.add_comm, Int.mul_comm]
  have comparisons (x y : Int) : code.holds? x y = code.holds? y x := by
    cases code <;> simp_all [Opcode.isCommutative, Opcode.holds?, eq_comm (a := x)]
  have booleans (x y : Bool) : code.onBooleans? x y = code.onBooleans? y x := by
    cases code <;> cases x <;> cases y <;> simp_all [Opcode.isCommutative, Opcode.onBooleans?]
  cases x <;> cases y <;> simp only [binary?]
  case int.int x y => rw [integers, comparisons]
  case bool.bool x y => rw [booleans]
  all_goals
    split
    · next computes => exact swap computes
    · rfl

/-- A commutative operation does not depend on the order of its operands. -/
theorem Symmetric.compute?_perm (symmetric : floats.Symmetric) {code : Opcode}
    (commutes : code.isCommutative = true) (literal : Option Literal)
    {values values' : List (Value F)} (perm : values.Perm values')
    : floats.compute? code literal values = floats.compute? code literal values' := by
  have others (values : List (Value F)) (other : values.length ≠ 2)
      : floats.compute? code literal values = none := by
    match values, other with
    | [], _ => cases code <;> simp_all [compute?, Opcode.isCommutative]
    | [_], _ => cases code <;> simp_all [compute?, Opcode.isCommutative]
    | _ :: _ :: _ :: _, _ => cases code <;> simp_all [compute?, Opcode.isCommutative]
  have other : code ≠ .const := by
    rintro rfl
    cases commutes
  by_cases two : values.length = 2
  · obtain ⟨x, y, rfl⟩ := List.length_eq_two.mp two
    rcases List.pair_perm.mp perm with rfl | rfl
    · rfl
    · rw [compute?_pair other, compute?_pair other]
      exact symmetric.binary?_comm commutes x y
  · rw [others values two, others values' (perm.length_eq ▸ two)]

-----------------------------------------------------------------------------------------
-- Folding
-----------------------------------------------------------------------------------------

variable {code : Opcode} {literal : Option Literal} {result : Literal} {value : Value F}

/-- The value is the literal that is known of it, if one is. -/
def Known (floats : Floats F) (constant : Option Literal) (value : Value F) : Prop :=
  ∀ literal, constant = some literal → value = floats.ofLiteral literal

/-- Folding two literals gives what the operation computes from them. -/
theorem binary?_of_onLiterals? {left right : Literal}
    (folded : code.onLiterals? left right = some result)
    : floats.binary? code (floats.ofLiteral left) (floats.ofLiteral right)
      = some (floats.ofLiteral result) := by
  cases left <;> cases right <;> simp only [Opcode.onLiterals?, reduceCtorEq] at folded
  case int.int x y =>
    rw [Opcode.onInts?_eq, Opcode.compareInts?_eq] at folded
    simp only [ofLiteral, binary?]
    split at folded
    · obtain ⟨wrapped, wraps, rfl⟩ := Option.map_eq_some_iff.mp folded
      obtain ⟨z, computed, rfl⟩ := Option.map_eq_some_iff.mp wraps
      simp only [computed, Option.map_some]
      rfl
    · next other =>
        obtain ⟨holds, computed, rfl⟩ := Option.map_eq_some_iff.mp folded
        have none : code.onIntegers? x.toInt y.toInt = none := by
          cases code <;> simp_all [Opcode.isArithmetic, Opcode.onIntegers?]
        simp only [computed, none, Option.map_none, Option.map_some, Option.none_or]
  case bool.bool x y =>
    obtain ⟨holds, computed, rfl⟩ := Option.map_eq_some_iff.mp folded
    simp only [ofLiteral, binary?, Opcode.compareBools?_sound computed, Option.map_some]

/-- Logic on two operands is stuck unless both are booleans. -/
theorem exists_bool_of_binary? {x y : Value F} (logic : code = .and ∨ code = .or)
    (computed : floats.binary? code x y = some value)
    : ∃ p q, x = .bool p ∧ y = .bool q ∧ (code.onBooleans? p q).map .bool = some value := by
  rcases logic with rfl | rfl <;> cases x <;> cases y <;>
    simp_all [binary?, Opcode.onIntegers?, Opcode.holds?, Opcode.isArithmetic,
      Opcode.isComparison]

/-- A boolean that is known of a boolean value is its value. -/
theorem Known.eq_bool {constant : Option Literal} {p q : Bool}
    (known : Known floats constant (.bool p)) (literal : constant.bind Literal.bool? = some q)
    : q = p := by
  obtain ⟨found, rfl, bool⟩ := Option.bind_eq_some_iff.mp literal
  have same := known found rfl
  cases found <;> simp_all [Literal.bool?, ofLiteral]

/-- What folding knows of a conjunction holds of it. -/
theorem eq_of_foldAnd {left right : Option Bool} {p q r : Bool}
    (onLeft : ∀ b, left = some b → b = p) (onRight : ∀ b, right = some b → b = q)
    (folded : foldAnd left right = some r)
    : r = (p && q) := by
  unfold foldAnd at folded
  split at folded <;> grind

/-- What folding knows of a disjunction holds of it. -/
theorem eq_of_foldOr {left right : Option Bool} {p q r : Bool}
    (onLeft : ∀ b, left = some b → b = p) (onRight : ∀ b, right = some b → b = q)
    (folded : foldOr left right = some r)
    : r = (p || q) := by
  unfold foldOr at folded
  split at folded <;> grind

/-- Folding gives what the operation computes, if that is not stuck, whatever the operands are of
which nothing is known.
-/
theorem eq_of_foldConstant {constants : List (Option Literal)} {values : List (Value F)}
    (known : List.Forall₂ (Known floats) constants values)
    (folded : foldConstant code constants = some result)
    (computed : floats.compute? code literal values = some value)
    : value = floats.ofLiteral result := by
  unfold foldConstant at folded
  split at folded
  case h_1 operand =>
    obtain ⟨q, bool, rfl⟩ := Option.map_eq_some_iff.mp folded
    match values, known with
    | [x], .cons known .nil =>
        cases x with
        | bool p =>
            have literal : (some operand).bind Literal.bool? = some q := bool
            obtain rfl := known.eq_bool literal
            exact (Option.some.inj computed).symm
        | int p => simp [compute?] at computed
        | other p => simp [compute?] at computed
  case h_2 left right =>
    obtain ⟨r, bool, rfl⟩ := Option.map_eq_some_iff.mp folded
    match values, known with
    | [x, y], .cons onLeft (.cons onRight .nil) =>
        obtain ⟨p, q, rfl, rfl, both⟩ := exists_bool_of_binary? (.inl rfl) computed
        obtain rfl := eq_of_foldAnd (fun _ => onLeft.eq_bool) (fun _ => onRight.eq_bool) bool
        simpa [Opcode.onBooleans?, ofLiteral] using both.symm
  case h_3 left right =>
    obtain ⟨r, bool, rfl⟩ := Option.map_eq_some_iff.mp folded
    match values, known with
    | [x, y], .cons onLeft (.cons onRight .nil) =>
        obtain ⟨p, q, rfl, rfl, both⟩ := exists_bool_of_binary? (.inr rfl) computed
        obtain rfl := eq_of_foldOr (fun _ => onLeft.eq_bool) (fun _ => onRight.eq_bool) bool
        simpa [Opcode.onBooleans?, ofLiteral] using both.symm
  case h_4 left right _ _ =>
    match values, known with
    | [x, y], .cons onLeft (.cons onRight .nil) =>
        obtain rfl := onLeft left rfl
        obtain rfl := onRight right rfl
        have onBoth : floats.binary? code (floats.ofLiteral left) (floats.ofLiteral right)
            = some (floats.ofLiteral result) :=
          binary?_of_onLiterals? folded
        have other : code ≠ .const := by
          rintro rfl
          cases left <;> cases right <;>
            simp [Opcode.onLiterals?, Opcode.isArithmetic, Opcode.compareInts?,
              Opcode.compareBools?] at folded
        rw [compute?_pair other, onBoth] at computed
        exact (Option.some.inj computed).symm
  case h_5 => simp at folded

/-- Comparing an integer or a boolean with itself gives what folding gives, if it is not stuck. -/
theorem eq_of_foldSelfComparison {x : Value F} (scalar : x.IsScalar)
    (folded : foldSelfComparison code = some result)
    (computed : floats.compute? code literal [x, x] = some value)
    : value = floats.ofLiteral result := by
  cases x with
  | other x => exact scalar.elim
  | int x =>
      cases code <;> cases folded <;>
        simpa [compute?, binary?, Opcode.onIntegers?, Opcode.holds?, ofLiteral] using computed.symm
  | bool x =>
      cases code <;> cases folded <;>
        simpa [compute?, binary?, Opcode.onBooleans?, ofLiteral] using computed.symm

end Floats

end ThreeAddress
