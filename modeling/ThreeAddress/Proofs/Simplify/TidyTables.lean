import Mathlib.Data.List.Forall2
import ThreeAddress.Proofs.Simplify.Tables

/-! What holds of the tables that value numbering comes to: homes hold their values, literals are
found by their keys, and what is found by the key of a computation is no known literal.
-/

namespace ThreeAddress

namespace ValueTable

variable {table : ValueTable}

/-- Homes hold their values, literals are found by their keys, and what is computed from operands is
no known literal.
-/
structure Tidy (table : ValueTable) : Prop where
  homes {num : Nat} {home : String}
    : table.home? num = some home → table.vars.lookup home = some num
  literals {num : Nat} {literal : Literal}
    : table.constant? num = some literal → table.keys.lookup (.const literal) = some num
  computed {code : Opcode} {nums : List Nat} {num : Nat}
    : table.keys.lookup (.expr code nums) = some num →
      num < table.values.size ∧ table.constant? num = none

/-- Nothing is known in a table without entries. -/
theorem tidy_empty : Tidy .empty where
  homes found := by simp [empty, home?] at found
  literals known := by simp [empty, constant?] at known
  computed listed := by simp [empty] at listed

namespace Tidy

/-- A value that is no known literal may be added. -/
theorem push (tidy : table.Tidy) (ty : Option Ty) : (table.push none ty).2.Tidy where
  homes found := tidy.homes ((home?_push none ty _).symm.trans found)
  literals {num literal} known := by
    rw [constant?_push] at known
    split at known
    · cases known
    · exact tidy.literals known
  computed {code nums num} listed := by
    obtain ⟨old, unknown⟩ := tidy.computed listed
    rw [constant?_push, if_neg (Nat.ne_of_lt old), size_push]
    exact ⟨Nat.lt_succ_of_lt old, unknown⟩

theorem bind (tidy : table.Tidy) (var : String) (num : Nat) : (table.bind var num).Tidy where
  homes found := lookup_of_home?_bind var num tidy.homes found
  literals known := by
    rw [constant?_bind] at known
    rw [keys_bind]
    exact tidy.literals known
  computed listed := by
    rw [keys_bind] at listed
    rw [constant?_bind, size_bind]
    exact tidy.computed listed

theorem numberOf (tidy : table.Tidy) (var : String) : (table.numberOf var).2.Tidy := by
  unfold ValueTable.numberOf
  split
  · exact tidy
  · exact (tidy.push none).bind var _

theorem numbersOf (tidy : table.Tidy) (vars : List String) : (table.numbersOf vars).2.Tidy := by
  induction vars generalizing table with
  | nil => exact tidy
  | cons var rest ih => exact ih (tidy.numberOf var)

/-- A literal is numbered together with its key. -/
theorem numberConst (tidy : table.Tidy) (literal : Literal) (ty : Option Ty)
    : (table.numberConst literal ty).2.Tidy := by
  unfold ValueTable.numberConst
  cases number : table.keys.lookup (.const literal) with
  | some num => exact tidy
  | none =>
      let pushed := (table.push (some literal) ty).2
      change (pushed.learn (.const literal) table.values.size).Tidy
      constructor
      case homes => exact fun found => tidy.homes ((home?_push _ ty _).symm.trans found)
      case literals =>
        intro num known knows
        change pushed.constant? num = some known at knows
        rw [constant?_push] at knows
        rw [lookup_learn]
        split at knows
        · next last => rw [Option.some.inj knows, if_pos rfl, last]
        · have before := tidy.literals knows
          have different : ValueKey.const known ≠ .const literal := by
            intro same
            simp [same, number] at before
          rw [if_neg different]
          exact before
      case computed =>
        intro code nums num listed
        rw [lookup_learn, if_neg nofun] at listed
        obtain ⟨old, unknown⟩ := tidy.computed listed
        change num < pushed.values.size ∧ pushed.constant? num = none
        rw [constant?_push, if_neg (Nat.ne_of_lt old), size_push]
        exact ⟨Nat.lt_succ_of_lt old, unknown⟩

/-- The result of a computation that was not known is no known literal. -/
theorem numberFresh (tidy : table.Tidy) (code : Opcode) (nums : List Nat) (ty : Option Ty)
    : (table.numberFresh (exprKey code nums) ty).2.Tidy := by
  have pushed := tidy.push ty
  change ((table.push none ty).2.learn (exprKey code nums) table.values.size).Tidy
  constructor
  case homes => exact pushed.homes
  case literals =>
    intro num literal known
    rw [lookup_learn, if_neg nofun]
    exact pushed.literals known
  case computed =>
    intro code' nums' num listed
    rw [lookup_learn] at listed
    split at listed
    · obtain rfl := Option.some.inj listed
      refine ⟨(table.size_push none ty).symm ▸ Nat.lt_succ_self _, ?_⟩
      exact (table.constant?_push none ty _).trans (if_pos rfl)
    · exact pushed.computed listed

theorem numberPure (tidy : table.Tidy) (op : Operation) (dest : String) (nums : List Nat)
    : (table.numberPure op dest nums).2.2.Tidy := by
  have numbering := table.pureNumbering dest op nums
  generalize table.numberPure op dest nums = result at numbering ⊢
  cases numbering with
  | copy | known => exact tidy
  | unknown => exact tidy.push op.ty
  | folded => exact tidy.numberConst _ op.ty
  | fresh => exact tidy.numberFresh op.opcode nums op.ty

theorem visit (tidy : table.Tidy) (op : Operation) : (table.visit op).2.Tidy := by
  have numbered := tidy.numbersOf op.args
  cases phi : op.isPhi with
  | true =>
      rw [visit_phi op phi]
      cases op.dest with
      | none => exact tidy
      | some dest => exact (tidy.push op.ty).bind dest _
  | false =>
      cases named : op.dest with
      | none =>
          rw [visit_unnamed op phi named]
          exact numbered
      | some dest =>
          cases pure : op.opcode.isPure with
          | false =>
              rw [visit_impure op pure named]
              exact (numbered.push op.ty).bind dest _
          | true =>
              rw [visit_pure op phi pure named]
              exact (numbered.numberPure _ dest _).bind dest _

end Tidy

-----------------------------------------------------------------------------------------
-- Numbered uses
-----------------------------------------------------------------------------------------

/-- The variables hold the values with the numbers. -/
def Holds (table : ValueTable) : List String → List Nat → Prop :=
  List.Forall₂ fun var num => table.vars.lookup var = some num

theorem lookup_numberOf_self (table : ValueTable) (var : String)
    : (table.numberOf var).2.vars.lookup var = some (table.numberOf var).1 := by
  cases held : table.vars.lookup var with
  | some num => rw [numberOf_of_lookup_eq_some held, held]
  | none => simp [numberOf_of_lookup_eq_none held]

/-- Numbering a use changes nothing about the variables seen before. -/
theorem lookup_numberOf_of_held {other : String} {num : Nat}
    (held : table.vars.lookup other = some num) (var : String)
    : (table.numberOf var).2.vars.lookup other = some num := by
  cases found : table.vars.lookup var with
  | some old => rw [numberOf_of_lookup_eq_some found, held]
  | none =>
      have different : other ≠ var := by
        rintro rfl
        simp [found] at held
      rw [numberOf_of_lookup_eq_none found]
      simp only [List.lookup_cons, beq_eq_false_iff_ne.mpr different, held]

theorem lookup_numbersOf_of_held {other : String} {num : Nat}
    (held : table.vars.lookup other = some num) (vars : List String)
    : (table.numbersOf vars).2.vars.lookup other = some num := by
  induction vars generalizing table with
  | nil => exact held
  | cons var rest ih => exact ih (lookup_numberOf_of_held held var)

/-- Numbered variables hold the values with their numbers. -/
theorem holds_numbersOf (table : ValueTable) (vars : List String)
    : (table.numbersOf vars).2.Holds vars (table.numbersOf vars).1 := by
  induction vars generalizing table with
  | nil => exact .nil
  | cons var rest ih =>
      exact .cons (lookup_numbersOf_of_held (table.lookup_numberOf_self var) rest) (ih _)

/-- Homes hold the values of the uses that are sent to them. -/
theorem Tidy.holds_redirect (tidy : table.Tidy) {args : List String} {nums : List Nat}
    (holds : table.Holds args nums)
    : table.Holds (table.redirect args nums) nums := by
  induction holds with
  | nil => exact .nil
  | @cons arg num _ _ held _ ih =>
      refine .cons ?_ ih
      change table.vars.lookup ((table.home? num).getD arg) = some num
      cases found : table.home? num with
      | none => exact held
      | some home => exact tidy.homes found

/-- A use that has been sent to a home stays there. -/
theorem redirect_redirect (table : ValueTable) (args : List String) (nums : List Nat)
    : table.redirect (table.redirect args nums) nums = table.redirect args nums := by
  induction args generalizing nums with
  | nil => rfl
  | cons arg args ih =>
      cases nums with
      | nil => rfl
      | cons num nums =>
          refine congrArg₂ List.cons ?_ (ih nums)
          cases home : table.home? num <;> simp only [home, Option.getD]

/-- The variables hold the values with the numbers, and are the homes of those that have one. -/
structure Settled (table : ValueTable) (vars : List String) (nums : List Nat) : Prop where
  holds : table.Holds vars nums
  stays : table.redirect vars nums = vars

/-- Uses are settled when they have been sent to the homes of what they use. -/
theorem Tidy.settled_redirect (tidy : table.Tidy) (vars : List String)
    : (table.numbersOf vars).2.Settled
        ((table.numbersOf vars).2.redirect vars (table.numbersOf vars).1)
        (table.numbersOf vars).1 where
  holds := (tidy.numbersOf vars).holds_redirect (table.holds_numbersOf vars)
  stays := redirect_redirect _ _ _

/-- A home is settled. -/
theorem Tidy.settled_home (tidy : table.Tidy) {num : Nat} {home : String}
    (known : table.home? num = some home)
    : table.Settled [home] [num] where
  holds := .cons (tidy.homes known) .nil
  stays := by simp [redirect, known]

-----------------------------------------------------------------------------------------
-- Numbered operations
-----------------------------------------------------------------------------------------

/-- What may become of a pure operation, with the number and the table it leaves: it stays as it is,
it becomes a literal, or it becomes a copy of the home of a value that is no known literal.
-/
inductive Outcome (table : ValueTable) (op : Operation) (dest : String)
    : Nat × Operation × ValueTable → Prop where
  | kept (num : Nat) (next : ValueTable) : Outcome table op dest (num, op, next)
  | folded (literal : Literal)
    : (op.opcode = .const → op.value = some literal) →
      Outcome table op dest
        ((table.numberConst literal op.ty).1, op.toConst literal,
          (table.numberConst literal op.ty).2)
  | copied {num : Nat} {home : String}
    : op.opcode ≠ .id → table.home? num = some home → table.constant? num = none →
      Outcome table op dest (num, { opcode := .id, dest, ty := op.ty, args := [home] }, table)

theorem Tidy.numberConst_of_constant? (tidy : table.Tidy) {num : Nat} {literal : Literal}
    (known : table.constant? num = some literal) (ty : Option Ty)
    : table.numberConst literal ty = (num, table) := by
  simp only [ValueTable.numberConst, tidy.literals known]

theorem Tidy.outcome_numberPure (tidy : table.Tidy) (op : Operation) (dest : String)
    (nums : List Nat)
    : Outcome table op dest (table.numberPure op dest nums) := by
  have numbering := table.pureNumbering dest op nums
  generalize table.numberPure op dest nums = result at numbering ⊢
  cases numbering with
  | @copy num code =>
      cases known : table.constant? num with
      | none => exact .kept num table
      | some literal =>
          have folded : Outcome table op dest _ :=
            .folded literal fun const => by simp [code] at const
          rwa [tidy.numberConst_of_constant? known] at folded
  | unknown | fresh => exact .kept _ _
  | folded _ folded =>
      exact .folded _ fun const => (folded?_of_const const).symm.trans folded
  | known other _ _ listed held =>
      split
      · exact .kept _ _
      · exact .copied other held (tidy.computed listed).2

/-- What becomes of a pure operation would stay as it is if it was numbered instead, and give the
same number, by what became of it.
-/
theorem Tidy.exists_settled_numberPure (tidy : table.Tidy) (op : Operation) (dest : String)
    {nums : List Nat}
    (settled : table.Settled op.args nums)
    : ∃ nums', table.Settled (table.numberPure op dest nums).2.1.args nums'
        ∧ table.numberPure (table.numberPure op dest nums).2.1 dest nums'
          = table.numberPure op dest nums := by
  have outcome := tidy.outcome_numberPure op dest nums
  generalize result : table.numberPure op dest nums = after at outcome
  cases outcome with
  | kept num last => exact ⟨nums, settled, result⟩
  | folded literal code =>
      have folded : table.folded? (op.toConst literal) [] = some literal := folded?_of_const rfl
      exact ⟨[], ⟨.nil, rfl⟩, numberPure_folded dest (by simp [Operation.toConst]) folded⟩
  | @copied num home other known unknown =>
      refine ⟨[num], tidy.settled_home known, ?_⟩
      rw [numberPure_copy dest rfl, unknown]
      rfl

end ValueTable

end ThreeAddress
