import Mathlib.Data.List.Sort
import Mathlib.Data.Set.Function
import ThreeAddress.Proofs.Simplify.TidyTables

/-! Value numbering of what has been numbered. The second run sees constants, copies and redirected
uses, so it numbers values in another order and never comes to some operands. Still each of its
numbers stands for one of the first run, with the same home, literal and type, and so it finds
nothing to change.
-/

namespace ThreeAddress

namespace ValueTable

variable {table : ValueTable}

-----------------------------------------------------------------------------------------
-- Keys
-----------------------------------------------------------------------------------------

theorem foldr_insertSorted_eq (nums : List Nat)
    : nums.foldr insertSorted [] = nums.insertionSort (· ≤ ·) := by
  have inserted (num : Nat) (nums : List Nat)
      : insertSorted num nums = nums.orderedInsert (· ≤ ·) num := by
    induction nums with
    | nil => rfl
    | cons head rest ih => simp only [insertSorted, List.orderedInsert_cons, ih]
  induction nums with
  | nil => rfl
  | cons head rest ih => rw [List.foldr_cons, ih, inserted, List.insertionSort_cons]

/-- Keys are equal for the same operation on the same numbers, in any order if it is commutative. -/
theorem exprKey_eq_iff {code code' : Opcode} {nums nums' : List Nat}
    : exprKey code nums = exprKey code' nums'
      ↔ code = code' ∧ if code.isCommutative then nums.Perm nums' else nums = nums' := by
  have sorted_eq_iff
      : nums.foldr insertSorted [] = nums'.foldr insertSorted [] ↔ nums.Perm nums' := by
    constructor
    · intro same
      exact (foldr_insertSorted_perm nums).symm.trans (same ▸ foldr_insertSorted_perm nums')
    · intro perm
      have sorted (nums : List Nat) : (nums.foldr insertSorted []).Pairwise (· ≤ ·) := by
        rw [foldr_insertSorted_eq]
        exact List.pairwise_insertionSort _ _
      refine List.Perm.eq_of_pairwise (fun _ _ _ _ => Nat.le_antisymm) (sorted nums) (sorted nums')
        ?_
      exact (foldr_insertSorted_perm nums).trans (perm.trans (foldr_insertSorted_perm nums').symm)
  simp only [exprKey, ValueKey.expr.injEq]
  refine and_congr_right fun same => ?_
  subst same
  split
  · exact sorted_eq_iff
  · exact .rfl

variable {origin : Nat → Nat} {bound : Nat}

/-- Numbers below a bound stand for different numbers. -/
def Distinct (origin : Nat → Nat) (bound : Nat) : Prop :=
  Set.InjOn origin { num | num < bound }

/-- Lists of different numbers stand for different lists, also up to order. -/
theorem Distinct.exprKey_map_eq_iff (distinct : Distinct origin bound) {code code' : Opcode}
    {nums nums' : List Nat} (bounded : ∀ num ∈ nums, num < bound)
    (bounded' : ∀ num ∈ nums', num < bound)
    : exprKey code (nums.map origin) = exprKey code' (nums'.map origin)
      ↔ exprKey code nums = exprKey code' nums' := by
  let back := Function.invFunOn origin { num | num < bound }
  have restored {nums : List Nat} (bounded : ∀ num ∈ nums, num < bound)
      : (nums.map origin).map back = nums := by
    rw [List.map_map]
    exact (List.map_congr_left fun num member =>
      distinct.leftInvOn_invFunOn (bounded num member)).trans (List.map_id nums)
  rw [exprKey_eq_iff, exprKey_eq_iff]
  refine and_congr_right fun _ => ?_
  split
  · refine ⟨fun perm => ?_, fun perm => perm.map origin⟩
    have perm' := perm.map back
    rwa [restored bounded, restored bounded'] at perm'
  · refine ⟨fun same => ?_, fun same => congrArg (List.map origin) same⟩
    have same' := congrArg (List.map back) same
    rwa [restored bounded, restored bounded'] at same'

/-- When a new number stands for something, old numbers stand for what they did. -/
theorem update_of_lt {old : Nat} (small : old < bound) (num : Nat)
    : Function.update origin bound num old = origin old :=
  Function.update_of_ne (Nat.ne_of_lt small) ..

/-- What holds of the old numbers and what they stand for, and of the new one, holds of all. -/
theorem forall_update {P : Nat → Nat → Prop} {num : Nat} (new : P bound num)
    (old : ∀ other < bound, P other (origin other))
    : ∀ other < bound + 1, P other (Function.update origin bound num other) := by
  intro other within
  rcases Nat.lt_succ_iff_lt_or_eq.mp within with before | rfl
  · rw [update_of_lt before]
    exact old other before
  · rwa [Function.update_self]

/-- A new number may stand for what no old number stands for. -/
theorem Distinct.update (distinct : Distinct origin bound) {num : Nat}
    (apart : ∀ old < bound, origin old ≠ num)
    : Distinct (Function.update origin bound num) (bound + 1) := by
  refine forall_update (P := fun left stood => ∀ right < bound + 1,
    stood = Function.update origin bound num right → left = right) ?_ fun left onLeft => ?_
  · refine forall_update (P := fun right stood => num = stood → bound = right) (fun _ => rfl)
      fun right onRight same => absurd same.symm (apart right onRight)
  · refine forall_update (P := fun right stood => origin left = stood → left = right)
      (fun same => absurd same (apart left onLeft)) fun right onRight => distinct onLeft onRight

/-- Entries for the same literal or computation, whose numbers stand for each other. -/
inductive SameEntry (origin : Nat → Nat) (bound : Nat)
    : ValueKey × Nat → ValueKey × Nat → Prop where
  | literal (literal : Literal) {num : Nat}
    : num < bound → SameEntry origin bound (.const literal, num) (.const literal, origin num)
  | computation (code : Opcode) {nums : List Nat} {num : Nat}
    : (∀ operand ∈ nums, operand < bound) → num < bound →
      SameEntry origin bound (exprKey code nums, num) (exprKey code (nums.map origin), origin num)

theorem SameEntry.mono {entry entry' : ValueKey × Nat} (same : SameEntry origin bound entry entry')
    {origin' : Nat → Nat} {bound' : Nat} (grows : bound ≤ bound')
    (keeps : ∀ num < bound, origin' num = origin num)
    : SameEntry origin' bound' entry entry' := by
  cases same with
  | literal literal small =>
      rw [← keeps _ small]
      exact .literal literal (Nat.lt_of_lt_of_le small grows)
  | computation code bounded small =>
      rw [← keeps _ small, ← List.map_congr_left fun num member => keeps num (bounded num member)]
      exact .computation code (fun num member => Nat.lt_of_lt_of_le (bounded num member) grows)
        (Nat.lt_of_lt_of_le small grows)

/-- Numbers that are found are bounded, by induction on the entries. -/
theorem lt_of_lookup {entries entries' : List (ValueKey × Nat)} {key : ValueKey} {num : Nat}
    (same : List.Forall₂ (SameEntry origin bound) entries' entries)
    (found : entries'.lookup key = some num)
    : num < bound := by
  induction same with
  | nil => cases found
  | cons here _ ih =>
      rw [List.lookup_cons] at found
      split at found
      · obtain rfl := Option.some.inj found
        cases here <;> assumption
      · exact ih found

/-- If two keys stand at the same places, then what is found for them stands for each other, by
induction on the entries.
-/
theorem lookup_eq_map_lookup {entries entries' : List (ValueKey × Nat)} {key key' : ValueKey}
    (same
      : List.Forall₂ (fun entry' entry =>
          (key' = entry'.1 ↔ key = entry.1) ∧ entry.2 = origin entry'.2) entries' entries)
    : entries.lookup key = (entries'.lookup key').map origin := by
  induction same with
  | nil => rfl
  | @cons entry' entry rest' rest here _ ih =>
      obtain ⟨first', num'⟩ := entry'
      obtain ⟨first, num⟩ := entry
      obtain ⟨place, rfl⟩ := here
      rw [List.lookup_cons, List.lookup_cons]
      by_cases own : key = first
      · simp [own, place.mpr own]
      · have other : ¬ key' = first' := fun found => own (place.mp found)
        simp only [beq_eq_false_iff_ne.mpr own, beq_eq_false_iff_ne.mpr other, ih]

-----------------------------------------------------------------------------------------
-- Two tables
-----------------------------------------------------------------------------------------

/-- The numbers of the second table stand for different numbers of the first one, of which the same
is known. A variable that only the first one has seen is the home of a value of its own that
nothing is known of.
-/
structure Retraces (table table' : ValueTable) (origin : Nat → Nat) : Prop where
  distinct : Distinct origin table'.values.size
  values : ∀ num < table'.values.size, table'.values[num]? = table.values[origin num]?
  vars {var : String} {num : Nat}
    : table'.vars.lookup var = some num →
      num < table'.values.size ∧ table.vars.lookup var = some (origin num)
  unseen {var : String} {num : Nat}
    : table'.vars.lookup var = none → table.vars.lookup var = some num →
      table.values[num]? = some { home := var } ∧ ∀ other < table'.values.size, origin other ≠ num
  keys : List.Forall₂ (SameEntry origin table'.values.size) table'.keys table.keys

/-- Both tables go on to tables of which the same holds, and old numbers stand for what they did. -/
structure Continues (origin : Nat → Nat) (bound : Nat) (next next' : ValueTable)
    (origin' : Nat → Nat)
    : Prop where
  retraces : Retraces next next' origin'
  grows : bound ≤ next'.values.size
  keeps : ∀ num < bound, origin' num = origin num

/-- Both tables go on, and give numbers of which the second stands for the first. -/
structure Renumbers (origin : Nat → Nat) (bound : Nat) (result result' : Nat × ValueTable)
    (origin' : Nat → Nat)
    : Prop extends Continues origin bound result.2 result'.2 origin' where
  number_lt : result'.1 < result'.2.values.size
  number_eq : origin' result'.1 = result.1

/-- Tables without entries have nothing to stand for each other. -/
theorem retraces_empty (origin : Nat → Nat) : Retraces .empty .empty origin where
  distinct num small := absurd small (Nat.not_lt_zero num)
  values num small := absurd small (Nat.not_lt_zero num)
  vars found := by simp [empty] at found
  unseen _ found := by simp [empty] at found
  keys := .nil

theorem Continues.trans {origin' origin'' : Nat → Nat} {next next' last last' : ValueTable}
    (first : Continues origin bound next next' origin')
    (second : Continues origin' next'.values.size last last' origin'')
    : Continues origin bound last last' origin'' where
  retraces := second.retraces
  grows := Nat.le_trans first.grows second.grows
  keeps num old :=
    (second.keeps num (Nat.lt_of_lt_of_le old first.grows)).trans (first.keeps num old)

namespace Retraces

variable {table' : ValueTable} (retraces : Retraces table table' origin)

include retraces

theorem refl : Continues origin table'.values.size table table' origin :=
  ⟨retraces, Nat.le_refl _, fun _ _ => rfl⟩

theorem origin_lt {num : Nat} (small : num < table'.values.size)
    : origin num < table.values.size := by
  have same := retraces.values num small
  rw [Array.getElem?_eq_getElem small] at same
  exact (Array.getElem?_eq_some_iff.mp same.symm).1

section Known

variable {num : Nat} (small : num < table'.values.size)

include small

theorem home?_eq : table'.home? num = table.home? (origin num) := by
  rw [home?, home?, retraces.values num small]

theorem constant?_eq : table'.constant? num = table.constant? (origin num) := by
  rw [constant?, constant?, retraces.values num small]

theorem ty?_eq : table'.ty? num = table.ty? (origin num) := by
  rw [ty?, ty?, retraces.values num small]

/-- A variable holds a number exactly if it held what the number stands for. -/
theorem lookup_vars_iff {var : String}
    : table'.vars.lookup var = some num ↔ table.vars.lookup var = some (origin num) := by
  refine ⟨fun held => (retraces.vars held).2, fun held => ?_⟩
  cases found : table'.vars.lookup var with
  | none => exact absurd rfl ((retraces.unseen found held).2 num small)
  | some other =>
      obtain ⟨bound, same⟩ := retraces.vars found
      rw [held] at same
      exact congrArg some (retraces.distinct bound small (Option.some.inj same).symm)

end Known

/-- A literal is found if it was. -/
theorem lookup_literal (literal : Literal)
    : table.keys.lookup (.const literal) = (table'.keys.lookup (.const literal)).map origin := by
  refine lookup_eq_map_lookup (retraces.keys.imp fun entry' entry same => ?_)
  cases same with
  | literal other small => exact ⟨.rfl, rfl⟩
  | computation code bounded small => exact ⟨iff_of_false nofun nofun, rfl⟩

/-- A computation is found if it was. -/
theorem lookup_exprKey (code : Opcode) {nums : List Nat}
    (bounded : ∀ num ∈ nums, num < table'.values.size)
    : table.keys.lookup (exprKey code (nums.map origin))
      = (table'.keys.lookup (exprKey code nums)).map origin := by
  refine lookup_eq_map_lookup (retraces.keys.imp fun entry' entry same => ?_)
  cases same with
  | literal other small => exact ⟨iff_of_false nofun nofun, rfl⟩
  | computation code' bounded' small =>
      exact ⟨(retraces.distinct.exprKey_map_eq_iff bounded bounded').symm, rfl⟩

/-- The result of a computation has the home it had. -/
theorem bind_home?_lookup_exprKey (code : Opcode) {nums : List Nat}
    (bounded : ∀ num ∈ nums, num < table'.values.size)
    : (table.keys.lookup (exprKey code (nums.map origin))).bind table.home?
      = (table'.keys.lookup (exprKey code nums)).bind table'.home? := by
  rw [retraces.lookup_exprKey code bounded]
  cases found : table'.keys.lookup (exprKey code nums) with
  | none => rfl
  | some num => exact (retraces.home?_eq (lt_of_lookup retraces.keys found)).symm

/-- Operations are folded as they were. -/
theorem folded?_eq (op : Operation) {nums : List Nat}
    (bounded : ∀ num ∈ nums, num < table'.values.size)
    : table'.folded? op nums = table.folded? op (nums.map origin) := by
  by_cases code : op.opcode = .const
  · rw [folded?_of_const code, folded?_of_const code]
  by_cases lengths : nums.length = 2
  · obtain ⟨left, right, rfl⟩ := List.length_eq_two.mp lengths
    have onLeft := bounded left (by simp)
    have onRight := bounded right (by simp)
    have same : left = right ↔ origin left = origin right :=
      (retraces.distinct.eq_iff onLeft onRight).symm
    rw [folded?_pair code, List.map_cons, List.map_cons, List.map_nil, folded?_pair code,
      retraces.constant?_eq onLeft, retraces.constant?_eq onRight, retraces.ty?_eq onLeft]
    simp only [same]
  · rw [folded?_other code lengths, folded?_other code (by rwa [List.length_map]), List.map_map]
    refine congrArg _ (List.map_congr_left fun num member => ?_)
    exact retraces.constant?_eq (bounded num member)

-----------------------------------------------------------------------------------------
-- Both tables going on
-----------------------------------------------------------------------------------------

/-- Both tables learn how they computed a value. -/
theorem learn {key key' : ValueKey} {num num' : Nat}
    (same : SameEntry origin table'.values.size (key', num') (key, num))
    : Retraces (table.learn key num) (table'.learn key' num') origin where
  distinct := retraces.distinct
  values := retraces.values
  vars := retraces.vars
  unseen := retraces.unseen
  keys := .cons same retraces.keys

/-- Both tables get a value of which the same is known. -/
theorem push (constant : Option Literal) (ty : Option Ty)
    : Renumbers origin table'.values.size (table.push constant ty) (table'.push constant ty)
        (Function.update origin table'.values.size table.values.size) := by
  have apart (old : Nat) (small : old < table'.values.size) : origin old ≠ table.values.size :=
    Nat.ne_of_lt (retraces.origin_lt small)
  refine ⟨⟨?_, by simp, fun old small => update_of_lt small _⟩, by simp [ValueTable.push],
    by simp [ValueTable.push]⟩
  constructor
  case distinct => exact (table'.size_push constant ty).symm ▸ retraces.distinct.update apart
  case values =>
    rw [size_push]
    refine forall_update (P := fun other stood =>
      (table'.push constant ty).2.values[other]? = (table.push constant ty).2.values[stood]?)
      (by simp [ValueTable.push]) fun old small => ?_
    simp only [ValueTable.push, Array.getElem?_push, if_neg (Nat.ne_of_lt small),
      if_neg (apart old small), retraces.values old small]
  case vars =>
    intro var num held
    obtain ⟨small, same⟩ := retraces.vars held
    rw [size_push, update_of_lt small]
    exact ⟨Nat.lt_succ_of_lt small, same⟩
  case unseen =>
    intro var num unknown held
    obtain ⟨bare, alone⟩ := retraces.unseen unknown held
    have small := (Array.getElem?_eq_some_iff.mp bare).1
    rw [size_push]
    refine ⟨?_, forall_update (P := fun _ stood => stood ≠ num) (Nat.ne_of_lt small).symm alone⟩
    rw [ValueTable.push, Array.getElem?_push, if_neg (Nat.ne_of_lt small), bare]
  case keys =>
    rw [size_push]
    exact retraces.keys.imp fun _ _ same =>
      same.mono (Nat.le_succ _) fun old small => update_of_lt small _

/-- Both tables bind a variable to numbers that stand for each other. -/
theorem bind {num' : Nat} (small : num' < table'.values.size) (var : String)
    : Retraces (table.bind var (origin num')) (table'.bind var num') origin := by
  constructor
  case distinct => exact (table'.size_bind var num').symm ▸ retraces.distinct
  case values =>
    intro num within
    rw [size_bind] at within
    have same : origin num = origin num' ↔ num = num' := retraces.distinct.eq_iff within small
    rw [getElem?_values_bind, getElem?_values_bind, retraces.values num within]
    simp only [same, ← retraces.lookup_vars_iff within]
  case vars =>
    intro other num held
    rw [vars_bind, List.lookup_cons] at held ⊢
    rw [size_bind]
    split at held
    · obtain rfl := Option.some.inj held
      exact ⟨small, rfl⟩
    · exact retraces.vars held
  case unseen =>
    intro other num unknown held
    rw [vars_bind, List.lookup_cons] at unknown held
    split at unknown
    · cases unknown
    · next different =>
        have apart : other ≠ var := by simpa using different
        rw [different] at held
        obtain ⟨bare, alone⟩ := retraces.unseen unknown held
        refine ⟨?_, by rwa [size_bind]⟩
        have unbound : num ≠ origin num' := (alone num' small).symm
        simp [getElem?_values_bind, bare, unbound, apart]
  case keys => simpa only [keys_bind, size_bind] using retraces.keys

/-- The first table may come to a variable that the second one does not come to. -/
theorem numberOf_left (var : String) : Retraces (table.numberOf var).2 table' origin := by
  cases held : table.vars.lookup var with
  | some num =>
      rw [numberOf_of_lookup_eq_some held]
      exact retraces
  | none =>
      rw [numberOf_of_lookup_eq_none held]
      constructor
      case distinct => exact retraces.distinct
      case values =>
        intro num small
        rw [Array.getElem?_push, if_neg (Nat.ne_of_lt (retraces.origin_lt small))]
        exact retraces.values num small
      case vars =>
        intro other num found
        obtain ⟨small, same⟩ := retraces.vars found
        have different : other ≠ var := by
          rintro rfl
          simp [held] at same
        simp only [List.lookup_cons, beq_eq_false_iff_ne.mpr different]
        exact ⟨small, same⟩
      case unseen =>
        intro other num unknown found
        rw [List.lookup_cons] at found
        split at found
        · next same =>
            obtain rfl := Option.some.inj found
            obtain rfl := eq_of_beq same
            exact ⟨by simp, fun old small => Nat.ne_of_lt (retraces.origin_lt small)⟩
        · obtain ⟨bare, alone⟩ := retraces.unseen unknown found
          have small := (Array.getElem?_eq_some_iff.mp bare).1
          exact ⟨by rw [Array.getElem?_push, if_neg (Nat.ne_of_lt small), bare], alone⟩
      case keys => exact retraces.keys

theorem numbersOf_left (vars : List String) : Retraces (table.numbersOf vars).2 table' origin := by
  induction vars generalizing table with
  | nil => exact retraces
  | cons var rest ih => exact ih (retraces.numberOf_left var)

/-- If the first table knows a variable, then the second one numbers it alike. -/
theorem numberOf_right {var : String} {num : Nat} (held : table.vars.lookup var = some num)
    : ∃ origin',
        Renumbers origin table'.values.size (num, table) (table'.numberOf var) origin' := by
  cases found : table'.vars.lookup var with
  | some num' =>
      obtain ⟨small, same⟩ := retraces.vars found
      rw [numberOf_of_lookup_eq_some found]
      exact ⟨origin, retraces.refl, small, Option.some.inj (same.symm.trans held)⟩
  | none =>
      obtain ⟨bare, alone⟩ := retraces.unseen found held
      rw [numberOf_of_lookup_eq_none found]
      refine ⟨Function.update origin table'.values.size num,
        ⟨?_, by simp, fun old small => update_of_lt small num⟩, by simp, by simp⟩
      constructor
      case distinct => simpa only [Array.size_push] using retraces.distinct.update alone
      case values =>
        rw [Array.size_push]
        refine forall_update (P := fun other stood =>
          (table'.values.push { home := var })[other]? = table.values[stood]?)
          (by simp [bare]) fun old small => ?_
        rw [Array.getElem?_push, if_neg (Nat.ne_of_lt small)]
        exact retraces.values old small
      case vars =>
        intro other old known
        rw [List.lookup_cons] at known
        split at known
        · next same =>
            obtain rfl := Option.some.inj known
            obtain rfl := eq_of_beq same
            simpa using held
        · obtain ⟨small, same⟩ := retraces.vars known
          rw [Array.size_push, update_of_lt small]
          exact ⟨Nat.lt_succ_of_lt small, same⟩
      case unseen =>
        intro other old unknown known
        rw [List.lookup_cons] at unknown
        split at unknown
        · cases unknown
        · next different =>
            obtain ⟨bare', alone'⟩ := retraces.unseen unknown known
            rw [Array.size_push]
            refine ⟨bare', forall_update (P := fun _ stood => stood ≠ old) ?_ alone'⟩
            rintro rfl
            have same : var = other := by simpa using bare.symm.trans bare'
            simp [same] at different
      case keys =>
        rw [Array.size_push]
        exact retraces.keys.imp fun _ _ same =>
          same.mono (Nat.le_succ _) fun old small => update_of_lt small num

/-- The second table numbers variables as the first one has numbered them. -/
theorem numbersOf_right {vars : List String} {nums : List Nat} (holds : table.Holds vars nums)
    : ∃ origin', Continues origin table'.values.size table (table'.numbersOf vars).2 origin'
        ∧ (∀ num ∈ (table'.numbersOf vars).1, num < (table'.numbersOf vars).2.values.size)
        ∧ (table'.numbersOf vars).1.map origin' = nums := by
  induction holds generalizing table' origin with
  | nil => exact ⟨origin, retraces.refl, by simp [ValueTable.numbersOf], rfl⟩
  | @cons var num _ _ held _ ih =>
      obtain ⟨first, here⟩ := retraces.numberOf_right held
      obtain ⟨last, later, bounded, same⟩ := ih here.retraces
      have own : last (table'.numberOf var).1 = num :=
        (later.keeps _ here.number_lt).trans here.number_eq
      refine ⟨last, here.toContinues.trans later, ?_, ?_⟩
      · simp only [ValueTable.numbersOf, List.mem_cons, forall_eq_or_imp]
        exact ⟨Nat.lt_of_lt_of_le here.number_lt later.grows, bounded⟩
      · simp only [ValueTable.numbersOf, List.map_cons, own, same]

/-- Both tables send uses to the same homes. -/
theorem redirect_eq (vars : List String) {nums : List Nat}
    (bounded : ∀ num ∈ nums, num < table'.values.size)
    : table'.redirect vars nums = table.redirect vars (nums.map origin) := by
  induction vars generalizing nums with
  | nil => rfl
  | cons var rest ih =>
      cases nums with
      | nil => rfl
      | cons num nums =>
          obtain ⟨small, others⟩ := List.forall_mem_cons.mp bounded
          refine congrArg₂ List.cons ?_ (ih others)
          change (table'.home? num).getD var = (table.home? (origin num)).getD var
          rw [retraces.home?_eq small]

/-- The second table numbers settled uses alike, and they stay as they are. -/
theorem rerouted (op : Operation) {nums : List Nat} (settled : table.Settled op.args nums)
    : table'.rerouted op = op
        ∧ ∃ origin',
            Continues origin table'.values.size table (table'.numbersOf op.args).2 origin'
              ∧ (∀ num ∈ (table'.numbersOf op.args).1,
                  num < (table'.numbersOf op.args).2.values.size)
              ∧ (table'.numbersOf op.args).1.map origin' = nums := by
  obtain ⟨origin', continues, bounded, same⟩ := retraces.numbersOf_right settled.holds
  refine ⟨?_, origin', continues, bounded, same⟩
  have stay := continues.retraces.redirect_eq op.args bounded
  rw [same, settled.stays] at stay
  exact congrArg (fun args => { op with args }) stay

/-- Both tables number a literal. -/
theorem numberConst (literal : Literal) (ty : Option Ty)
    : ∃ origin', Renumbers origin table'.values.size (table.numberConst literal ty)
        (table'.numberConst literal ty) origin' := by
  have found := retraces.lookup_literal literal
  unfold ValueTable.numberConst
  cases known : table'.keys.lookup (.const literal) with
  | some num =>
      rw [known, Option.map_some] at found
      rw [found]
      exact ⟨origin, retraces.refl, lt_of_lookup retraces.keys known, rfl⟩
  | none =>
      rw [known, Option.map_none] at found
      rw [found]
      have pushed := retraces.push (some literal) ty
      refine ⟨_, ⟨?_, pushed.grows, pushed.keeps⟩, pushed.number_lt, pushed.number_eq⟩
      refine pushed.retraces.learn ?_
      rw [← pushed.number_eq]
      exact .literal literal pushed.number_lt

/-- Both tables number a computation as a new value. -/
theorem numberFresh (code : Opcode) {nums : List Nat}
    (bounded : ∀ num ∈ nums, num < table'.values.size) (ty : Option Ty)
    : ∃ origin',
        Renumbers origin table'.values.size
          (table.numberFresh (exprKey code (nums.map origin)) ty)
          (table'.numberFresh (exprKey code nums) ty) origin' := by
  have pushed := retraces.push none ty
  refine ⟨_, ⟨?_, pushed.grows, pushed.keeps⟩, pushed.number_lt, pushed.number_eq⟩
  refine pushed.retraces.learn ?_
  change SameEntry _ _ (_, (table'.push none ty).1) (_, (table.push none ty).1)
  rw [← pushed.number_eq,
    ← List.map_congr_left fun num member => pushed.keeps num (bounded num member)]
  exact .computation code
    (fun num member => Nat.lt_of_lt_of_le (bounded num member) pushed.grows) pushed.number_lt

/-- Both tables number a pure operation on numbers that stand for each other, and it becomes the
same.
-/
theorem numberPure (op : Operation) (dest : String) {nums : List Nat}
    (bounded : ∀ num ∈ nums, num < table'.values.size)
    : ∃ origin',
        (table'.numberPure op dest nums).2.1
            = (table.numberPure op dest (nums.map origin)).2.1
          ∧ Renumbers origin table'.values.size
              ((table.numberPure op dest (nums.map origin)).1,
                (table.numberPure op dest (nums.map origin)).2.2)
              ((table'.numberPure op dest nums).1, (table'.numberPure op dest nums).2.2)
              origin' := by
  have folds := retraces.folded?_eq op bounded
  have numbering := table'.pureNumbering dest op nums
  generalize table'.numberPure op dest nums = result at numbering ⊢
  cases numbering with
  | @copy num code singleton =>
      subst singleton
      have small := bounded num (List.mem_singleton_self num)
      rw [List.map_cons, List.map_nil, numberPure_copy dest code, retraces.constant?_eq small]
      exact ⟨origin, rfl, retraces.refl, small, rfl⟩
  | unknown unknown =>
      have lengths : (nums.map origin).length = nums.length := List.length_map _
      rw [numberPure_unknown dest (lengths.symm ▸ unknown)]
      exact ⟨_, rfl, retraces.push none op.ty⟩
  | folded other folded =>
      rw [numberPure_folded dest other (folds.symm.trans folded)]
      obtain ⟨origin', renumbers⟩ := retraces.numberConst _ op.ty
      exact ⟨origin', rfl, renumbers⟩
  | known other computed folded listed held =>
      have small := lt_of_lookup retraces.keys listed
      rw [numberPure_known dest other computed (folds.symm.trans folded)
        ((retraces.lookup_exprKey op.opcode bounded).trans (listed ▸ rfl))
        ((retraces.home?_eq small).symm.trans held)]
      exact ⟨origin, rfl, retraces.refl, small, rfl⟩
  | fresh other computed folded homeless =>
      rw [numberPure_fresh dest other computed (folds.symm.trans folded)
        ((retraces.bind_home?_lookup_exprKey op.opcode bounded).trans homeless)]
      obtain ⟨origin', renumbers⟩ := retraces.numberFresh op.opcode bounded op.ty
      exact ⟨origin', rfl, renumbers⟩

end Retraces

/-- Both tables bind a variable to the numbers they gave. -/
theorem Renumbers.bind {result result' : Nat × ValueTable} {origin' : Nat → Nat}
    (renumbers : Renumbers origin bound result result' origin') (var : String)
    : Retraces (result.2.bind var result.1) (result'.2.bind var result'.1) origin' :=
  renumbers.number_eq ▸ renumbers.retraces.bind renumbers.number_lt var

-----------------------------------------------------------------------------------------
-- Numbered operations
-----------------------------------------------------------------------------------------

/-- A pure operation that has been numbered stays as it is. -/
theorem Retraces.visit_pure {table' : ValueTable} (retraces : Retraces table table' origin)
    (tidy : table.Tidy) {op : Operation} {dest : String} (ordinary : op.isPhi = false)
    (pure : op.opcode.isPure = true) (named : op.dest = some dest)
    : (table'.visit (table.visit op).1).1 = (table.visit op).1
      ∧ ∃ origin', Retraces (table.visit op).2 (table'.visit (table.visit op).1).2 origin' := by
  have simplifies := table.visit_simplifies op
  rw [ValueTable.visit_pure op ordinary pure named] at simplifies ⊢
  dsimp only at simplifies ⊢
  rw [ValueTable.visit_pure _ (simplifies.isPhi_eq.trans ordinary) (simplifies.isPure_eq.trans pure)
    (simplifies.dest_eq.trans named)]
  dsimp only
  obtain ⟨nums, settled, same⟩ :=
    (tidy.numbersOf op.args).exists_settled_numberPure (table.rerouted op) dest
      (tidy.settled_redirect op.args)
  obtain ⟨stays, origin', continues, bounded, rfl⟩ :=
    (retraces.numbersOf_left op.args).rerouted _ settled
  obtain ⟨origin'', kept, renumbers⟩ := continues.retraces.numberPure _ dest bounded
  rw [same] at kept renumbers
  rw [stays]
  exact ⟨kept, origin'', renumbers.bind dest⟩

/-- An operation that has been numbered stays as it is. -/
theorem Retraces.visit {table' : ValueTable} (retraces : Retraces table table' origin)
    (tidy : table.Tidy) (op : Operation)
    : (table'.visit (table.visit op).1).1 = (table.visit op).1
      ∧ ∃ origin', Retraces (table.visit op).2 (table'.visit (table.visit op).1).2 origin' := by
  obtain ⟨stays, origin', continues, -⟩ :=
    (retraces.numbersOf_left op.args).rerouted (table.rerouted op)
      (tidy.settled_redirect op.args)
  cases phi : op.isPhi with
  | true =>
      rw [visit_phi op phi, visit_phi op phi]
      refine ⟨rfl, ?_⟩
      cases op.dest with
      | none => exact ⟨origin, retraces⟩
      | some dest => exact ⟨_, (retraces.push none op.ty).bind dest⟩
  | false =>
      cases named : op.dest with
      | none =>
          rw [visit_unnamed op phi named, visit_unnamed (table.rerouted op) phi named]
          exact ⟨stays, origin', continues.retraces⟩
      | some dest =>
          cases pure : op.opcode.isPure with
          | true => exact retraces.visit_pure tidy phi pure named
          | false =>
              rw [visit_impure op pure named, visit_impure (table.rerouted op) pure named]
              exact ⟨stays, _, (continues.retraces.push none op.ty).bind dest⟩

end ValueTable

/-- Numbering what has been numbered changes nothing, by induction on the body: the tables in front
of each operation correspond, and they start again at labels.
-/
theorem numberValues_numberValues {table table' : ValueTable} {origin : Nat → Nat}
    (retraces : table.Retraces table' origin) (tidy : table.Tidy) (body : List Instruction)
    : (numberValues table' (numberValues table body).1).1 = (numberValues table body).1 := by
  induction body generalizing table table' origin with
  | nil => rfl
  | cons instruction rest ih =>
      cases instruction with
      | label name =>
          exact congrArg (.label name :: ·)
            (ih (ValueTable.retraces_empty id) ValueTable.tidy_empty)
      | operation op =>
          obtain ⟨same, origin', next⟩ := retraces.visit tidy op
          simp only [numberValues, same]
          exact congrArg _ (ih next (tidy.visit op))

end ThreeAddress
