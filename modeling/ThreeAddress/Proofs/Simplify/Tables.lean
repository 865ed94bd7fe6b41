import Mathlib.Logic.Function.Basic
import ThreeAddress.Simplify.ValueNumbering

/-! What the operations on a value table change, and what may become of the operations that are
numbered.
-/

namespace ThreeAddress

/-- Putting a number in its place adds it to the others. -/
theorem insertSorted_perm (num : Nat) (nums : List Nat)
    : (insertSorted num nums).Perm (num :: nums) := by
  induction nums with
  | nil => exact .refl _
  | cons head rest ih =>
      simp only [insertSorted]
      split
      · exact .refl _
      · exact (ih.cons head).trans (.swap num head rest)

/-- Sorted numbers are the numbers in some order. -/
theorem foldr_insertSorted_perm (nums : List Nat) : (nums.foldr insertSorted []).Perm nums := by
  induction nums with
  | nil => exact .refl _
  | cons head rest ih => exact (insertSorted_perm head _).trans (ih.cons head)

/-- An operation with effects is no phi. -/
theorem Operation.isPhi_eq_false_of_impure {op : Operation} (impure : op.opcode.isPure = false)
    : op.isPhi = false := by
  cases code : op.opcode <;> simp_all [Operation.isPhi, Opcode.isPure]

-----------------------------------------------------------------------------------------
-- What is known of numbers in a changed table
-----------------------------------------------------------------------------------------

namespace ValueTable

variable {table : ValueTable}

/-- What is read of values stays as it is when something else of one of them changes. -/
theorem bind_getElem?_modify {α : Type} {read : ValueInfo → Option α}
    {change : ValueInfo → ValueInfo} (keeps : ∀ info, read (change info) = read info)
    (values : Array ValueInfo) (changed num : Nat)
    : (values.modify changed change)[num]?.bind read = values[num]?.bind read := by
  simp only [Array.getElem?_modify]
  split
  · cases values[num]? with
    | none => rfl
    | some info => exact keeps info
  · rfl

section Push

variable (constant : Option Literal) (ty : Option Ty)

@[simp] theorem size_push : (table.push constant ty).2.values.size = table.values.size + 1 :=
  Array.size_push _

@[simp] theorem home?_push (num : Nat)
    : (table.push constant ty).2.home? num = table.home? num := by
  simp only [home?, push, Array.getElem?_push]
  split
  · next last => simp [last]
  · rfl

theorem constant?_push (num : Nat)
    : (table.push constant ty).2.constant? num
      = if num = table.values.size then constant else table.constant? num := by
  simp only [constant?, push, Array.getElem?_push]
  split <;> rfl

theorem ty?_push (num : Nat)
    : (table.push constant ty).2.ty? num
      = if num = table.values.size then ty else table.ty? num := by
  simp only [ty?, push, Array.getElem?_push]
  split <;> rfl

end Push

section Release

variable (var : String)

/-- Releasing a variable that is the home of its value takes the home away, and nothing else
happens.
-/
theorem release_cases
    : table.release var = table
        ∧ (∀ num, table.vars.lookup var = some num → table.home? num ≠ some var)
      ∨ ∃ old, table.vars.lookup var = some old ∧ table.home? old = some var
        ∧ table.release var
          = { table with values := table.values.modify old ({ · with home := none }) } := by
  unfold release
  cases number : table.vars.lookup var with
  | none => exact .inl ⟨rfl, fun num held => nomatch held⟩
  | some old =>
      by_cases home : table.home? old = some var
      · exact .inr ⟨old, rfl, home, if_pos home⟩
      · exact .inl ⟨if_neg home, fun num held => Option.some.inj held ▸ home⟩

@[simp] theorem vars_release : (table.release var).vars = table.vars := by
  rcases table.release_cases var with ⟨same, -⟩ | ⟨old, -, -, changed⟩ <;> simp only [*]

@[simp] theorem keys_release : (table.release var).keys = table.keys := by
  rcases table.release_cases var with ⟨same, -⟩ | ⟨old, -, -, changed⟩ <;> simp only [*]

@[simp] theorem size_release : (table.release var).values.size = table.values.size := by
  rcases table.release_cases var with ⟨same, -⟩ | ⟨old, -, -, changed⟩ <;>
    simp only [*, Array.size_modify]

@[simp] theorem constant?_release (num : Nat)
    : (table.release var).constant? num = table.constant? num := by
  rcases table.release_cases var with ⟨same, -⟩ | ⟨old, -, -, changed⟩
  · rw [same]
  · simp only [changed, constant?]
    exact bind_getElem?_modify (by intro info; rfl) _ _ _

@[simp] theorem ty?_release (num : Nat) : (table.release var).ty? num = table.ty? num := by
  rcases table.release_cases var with ⟨same, -⟩ | ⟨old, -, -, changed⟩
  · rw [same]
  · simp only [changed, ty?]
    exact bind_getElem?_modify (by intro info; rfl) _ _ _

/-- A released variable is the home of no value any more, where homes hold their values. -/
theorem home?_of_release
    (homes : ∀ {num home}, table.home? num = some home → table.vars.lookup home = some num)
    {num : Nat} {home : String} (found : (table.release var).home? num = some home)
    : table.home? num = some home ∧ home ≠ var := by
  rcases table.release_cases var with ⟨same, other⟩ | ⟨old, number, -, changed⟩
  · rw [same] at found
    exact ⟨found, fun equal => other num (equal ▸ homes found) (equal ▸ found)⟩
  · rw [changed] at found
    simp only [home?, Array.getElem?_modify] at found
    split at found
    · cases info : table.values[num]? <;> simp [info] at found
    · next different =>
        refine ⟨found, fun equal => different ?_⟩
        have held := homes found
        rw [equal, number] at held
        exact Option.some.inj held

end Release

section Bind

variable (var : String) (num : Nat)

@[simp] theorem vars_bind : (table.bind var num).vars = (var, num) :: table.vars := by
  simp only [bind, vars_release]

@[simp] theorem keys_bind : (table.bind var num).keys = table.keys := by
  simp only [bind, keys_release]

@[simp] theorem size_bind : (table.bind var num).values.size = table.values.size := by
  simp only [bind, Array.size_modify, size_release]

@[simp] theorem constant?_bind (other : Nat)
    : (table.bind var num).constant? other = table.constant? other := by
  rw [← table.constant?_release var]
  simp only [bind, constant?]
  exact bind_getElem?_modify (by intro info; rfl) _ _ _

@[simp] theorem ty?_bind (other : Nat) : (table.bind var num).ty? other = table.ty? other := by
  rw [← table.ty?_release var]
  simp only [bind, ty?]
  exact bind_getElem?_modify (by intro info; rfl) _ _ _

/-- A home behind a binding was one before, or is the bound variable. -/
theorem home?_of_bind {other : Nat} {home : String}
    (found : (table.bind var num).home? other = some home)
    : (table.release var).home? other = some home ∨ other = num ∧ home = var := by
  simp only [bind, home?, Array.getElem?_modify] at found
  split at found
  · next same =>
      obtain ⟨info, changed, holds⟩ := Option.bind_eq_some_iff.mp found
      obtain ⟨before, known, rfl⟩ := Option.map_eq_some_iff.mp changed
      rcases Option.or_eq_some_iff.mp holds with kept | ⟨-, bound⟩
      · exact .inl (Option.bind_eq_some_iff.mpr ⟨before, known, kept⟩)
      · exact .inr ⟨same.symm, (Option.some.inj bound).symm⟩
  · exact .inl found

/-- Homes hold their values behind a binding as well. -/
theorem lookup_of_home?_bind
    (homes : ∀ {num home}, table.home? num = some home → table.vars.lookup home = some num)
    {other : Nat} {home : String} (found : (table.bind var num).home? other = some home)
    : (table.bind var num).vars.lookup home = some other := by
  rw [vars_bind, List.lookup_cons]
  rcases home?_of_bind var num found with kept | ⟨rfl, rfl⟩
  · obtain ⟨before, different⟩ := home?_of_release var homes kept
    simp only [beq_eq_false_iff_ne.mpr different, homes before]
  · simp only [beq_self_eq_true]

end Bind

theorem lookup_learn (key other : ValueKey) (num : Nat)
    : (table.learn key num).keys.lookup other
      = if other = key then some num else table.keys.lookup other := by
  rw [learn, List.lookup_cons]
  by_cases same : other = key
  · simp only [same, beq_self_eq_true, if_true]
  · simp only [beq_eq_false_iff_ne.mpr same, if_neg same]

/-- What is known of the values when a variable is bound: the variable is no home of what it held
before, and it becomes the home of what it holds if that has none.
-/
theorem getElem?_values_bind (table : ValueTable) (var : String) (num other : Nat)
    : (table.bind var num).values[other]?
      = table.values[other]?.map fun info =>
          let home :=
            if info.home = some var ∧ table.vars.lookup var = some other then none else info.home
          { info with home := if other = num then home.or var else home } := by
  have released : (table.release var).values[other]?
      = table.values[other]?.map fun info =>
          { info with
            home := if info.home = some var ∧ table.vars.lookup var = some other then none
              else info.home } := by
    rcases table.release_cases var with ⟨same, kept⟩ | ⟨old, held, home, changed⟩
    · rw [same]
      cases found : table.values[other]? with
      | none => rfl
      | some info =>
          have stays : ¬ (info.home = some var ∧ table.vars.lookup var = some other) :=
            fun both => kept other both.2 (by rw [home?, found]; exact both.1)
          simp only [Option.map_some, if_neg stays]
    · rw [changed, Array.getElem?_modify, held]
      cases found : table.values[other]? with
      | none => simp
      | some info =>
          by_cases same : old = other
          · have own : info.home = some var := by simpa [home?, same, found] using home
            simp [same, own]
          · simp [same]
  simp only [bind, Array.getElem?_modify, released]
  cases table.values[other]? with
  | none => simp
  | some info => by_cases same : num = other <;> simp [same, Ne.symm]

-----------------------------------------------------------------------------------------
-- How operations are numbered
-----------------------------------------------------------------------------------------

theorem numberOf_of_lookup_eq_some {var : String} {num : Nat}
    (held : table.vars.lookup var = some num)
    : table.numberOf var = (num, table) := by
  simp only [numberOf, held]

/-- A variable not seen before is the home of a new value of which nothing is known. -/
theorem numberOf_of_lookup_eq_none {var : String} (new : table.vars.lookup var = none)
    : table.numberOf var
      = (table.values.size,
          { table with
            vars := (var, table.values.size) :: table.vars
            values := table.values.push { home := var } }) := by
  simp only [numberOf, push, bind, release, new, Prod.mk.injEq, true_and, mk.injEq, and_true]
  apply Array.ext_getElem?
  intro num
  simp only [Array.getElem?_modify, Array.getElem?_push]
  grind

/-- The operation with its uses sent to the homes of what they use. -/
def rerouted (table : ValueTable) (op : Operation) : Operation :=
  { op with args := (table.numbersOf op.args).2.redirect op.args (table.numbersOf op.args).1 }

section Folding

variable {op : Operation} {nums : List Nat}

theorem folded?_of_const (code : op.opcode = .const) : table.folded? op nums = op.value := by
  simp only [folded?, code]

theorem folded?_pair (other : op.opcode ≠ .const) (left right : Nat)
    : table.folded? op [left, right]
      = (foldConstant op.opcode [table.constant? left, table.constant? right]).or
          (if left = right ∧ op.opcode.isComparison
              ∧ (table.ty? left = some .int ∨ table.ty? left = some .bool)
            then foldSelfComparison op.opcode
            else none) := by
  unfold folded?
  split
  · exact absurd ‹_› other
  · simp_all
  · next lone => exact absurd rfl (lone _ _)

theorem folded?_other (other : op.opcode ≠ .const) (lengths : nums.length ≠ 2)
    : table.folded? op nums = foldConstant op.opcode (nums.map table.constant?) := by
  unfold folded?
  split
  · exact absurd ‹_› other
  · simp at lengths
  · rfl

end Folding

/-- The ways to number a pure operation, with the number of its result, what it becomes and the
table behind it.
-/
inductive PureNumbering (table : ValueTable) (op : Operation) (dest : String) (nums : List Nat)
    : Nat × Operation × ValueTable → Prop where
  | copy {num : Nat}
    : op.opcode = .id → nums = [num] →
      PureNumbering table op dest nums (num, (table.constant? num).elim op op.toConst, table)
  | unknown
    : op.opcode = .id ∧ nums.length ≠ 1 ∨ op.opcode = .const ∧ op.value = none →
      PureNumbering table op dest nums
        ((table.push none op.ty).1, op, (table.push none op.ty).2)
  | folded {literal : Literal}
    : op.opcode ≠ .id → table.folded? op nums = some literal →
      PureNumbering table op dest nums
        ((table.numberConst literal op.ty).1, op.toConst literal,
          (table.numberConst literal op.ty).2)
  | known {num : Nat} {home : String}
    : op.opcode ≠ .id → op.opcode ≠ .const → table.folded? op nums = none →
      table.keys.lookup (exprKey op.opcode nums) = some num → table.home? num = some home →
      PureNumbering table op dest nums
        (num, if home = dest then op else { opcode := .id, dest, ty := op.ty, args := [home] },
          table)
  | fresh
    : op.opcode ≠ .id → op.opcode ≠ .const → table.folded? op nums = none →
      (table.keys.lookup (exprKey op.opcode nums)).bind table.home? = none →
      PureNumbering table op dest nums
        ((table.numberFresh (exprKey op.opcode nums) op.ty).1, op,
          (table.numberFresh (exprKey op.opcode nums) op.ty).2)

section Pure

variable {op : Operation} {nums : List Nat} (dest : String)

theorem numberPure_copy (code : op.opcode = .id) (num : Nat)
    : table.numberPure op dest [num]
      = (num, (table.constant? num).elim op op.toConst, table) := by
  simp only [numberPure, code]

/-- A copy of other than one value, or a literal that is missing, is a value of its own. -/
theorem numberPure_unknown
    (unknown : op.opcode = .id ∧ nums.length ≠ 1 ∨ op.opcode = .const ∧ op.value = none)
    : table.numberPure op dest nums
      = ((table.push none op.ty).1, op, (table.push none op.ty).2) := by
  unfold numberPure
  split
  · simp_all
  · rfl
  · next other _ => rw [if_pos (unknown.resolve_left fun both => other both.1)]

section Computed

variable (other : op.opcode ≠ .id)

include other

theorem numberPure_folded {literal : Literal} (folded : table.folded? op nums = some literal)
    : table.numberPure op dest nums
      = ((table.numberConst literal op.ty).1, op.toConst literal,
          (table.numberConst literal op.ty).2) := by
  have carries : ¬ (op.opcode = .const ∧ op.value = none) := by
    rintro ⟨code, missing⟩
    simp [folded?_of_const code, missing] at folded
  unfold numberPure
  split
  · exact absurd ‹_› other
  · exact absurd ‹_› other
  · rw [if_neg carries, folded]

variable (computed : op.opcode ≠ .const) (folded : table.folded? op nums = none)

include computed folded

/-- An operation that is not folded becomes a copy of the home of its result, if that has one. -/
theorem numberPure_known {num : Nat} {home : String}
    (listed : table.keys.lookup (exprKey op.opcode nums) = some num)
    (held : table.home? num = some home)
    : table.numberPure op dest nums
      = (num, if home = dest then op else { opcode := .id, dest, ty := op.ty, args := [home] },
          table) := by
  unfold numberPure
  split
  · exact absurd ‹_› other
  · exact absurd ‹_› other
  · rw [if_neg fun missing => computed missing.1, folded]
    simp only [listed, Option.bind_some, held, Option.map_some]

theorem numberPure_fresh
    (homeless : (table.keys.lookup (exprKey op.opcode nums)).bind table.home? = none)
    : table.numberPure op dest nums
      = ((table.numberFresh (exprKey op.opcode nums) op.ty).1, op,
          (table.numberFresh (exprKey op.opcode nums) op.ty).2) := by
  have unknown : ((table.keys.lookup (exprKey op.opcode nums)).bind fun num =>
      (table.home? num).map (num, ·)) = none := by
    cases listed : table.keys.lookup (exprKey op.opcode nums) with
    | none => rfl
    | some num =>
        rw [listed, Option.bind_some] at homeless
        rw [Option.bind_some, homeless, Option.map_none]
  unfold numberPure
  split
  · exact absurd ‹_› other
  · exact absurd ‹_› other
  · rw [if_neg fun missing => computed missing.1, folded]
    simp only [unknown]

end Computed

/-- A pure operation is numbered in one of these ways. -/
theorem pureNumbering (table : ValueTable) (op : Operation) (nums : List Nat)
    : PureNumbering table op dest nums (table.numberPure op dest nums) := by
  by_cases unknown : op.opcode = .id ∧ nums.length ≠ 1 ∨ op.opcode = .const ∧ op.value = none
  · rw [numberPure_unknown dest unknown]
    exact .unknown unknown
  obtain ⟨single, carries⟩ := not_or.mp unknown
  by_cases code : op.opcode = .id
  · obtain ⟨num, rfl⟩ := List.length_eq_one_iff.mp (not_not.mp fun apart => single ⟨code, apart⟩)
    rw [numberPure_copy dest code]
    exact .copy code rfl
  cases folded : table.folded? op nums with
  | some literal =>
      rw [numberPure_folded dest code folded]
      exact .folded code folded
  | none =>
      have computed : op.opcode ≠ .const :=
        fun const => carries ⟨const, (folded?_of_const const).symm.trans folded⟩
      cases held : (table.keys.lookup (exprKey op.opcode nums)).bind table.home? with
      | none =>
          rw [numberPure_fresh dest code computed folded held]
          exact .fresh code computed folded held
      | some home =>
          obtain ⟨num, listed, known⟩ := Option.bind_eq_some_iff.mp held
          rw [numberPure_known dest code computed folded listed known]
          exact .known code computed folded listed known

end Pure

section Visit

variable (op : Operation) {dest : String}

theorem visit_phi (phi : op.isPhi = true)
    : table.visit op = (op, op.dest.elim table fun dest =>
        (table.push none op.ty).2.bind dest (table.push none op.ty).1) := by
  unfold visit
  rw [if_pos phi]
  cases op.dest <;> rfl

theorem visit_unnamed (ordinary : op.isPhi = false) (unnamed : op.dest = none)
    : table.visit op = (table.rerouted op, (table.numbersOf op.args).2) := by
  simp [visit, ordinary, unnamed, rerouted]

theorem visit_impure (impure : op.opcode.isPure = false) (named : op.dest = some dest)
    : table.visit op
      = (table.rerouted op,
          ((table.numbersOf op.args).2.push none op.ty).2.bind dest
            ((table.numbersOf op.args).2.push none op.ty).1) := by
  simp [visit, Operation.isPhi_eq_false_of_impure impure, named, impure, rerouted]

theorem visit_pure (ordinary : op.isPhi = false) (pure : op.opcode.isPure = true)
    (named : op.dest = some dest)
    : table.visit op
      = let result :=
          (table.numbersOf op.args).2.numberPure (table.rerouted op) dest
            (table.numbersOf op.args).1
        (result.2.1, result.2.2.bind dest result.1) := by
  simp [visit, ordinary, named, pure, rerouted]

end Visit

end ValueTable

-----------------------------------------------------------------------------------------
-- Simplified operations
-----------------------------------------------------------------------------------------

/-- What may become of an operation. A phi stays as it is. A pure operation becomes one with its
destination and type, and anything else only reads other variables.
-/
inductive Operation.Simplifies : Operation → Operation → Prop where
  | phi {op : Operation} : op.isPhi = true → Simplifies op op
  | pure {op next : Operation}
    : op.isPhi = false → op.opcode.isPure = true → next.isPhi = false →
      next.opcode.isPure = true → next.dest = op.dest → next.ty = op.ty → Simplifies op next
  | effect {op : Operation} (args : List String)
    : op.opcode.isPure = false → Simplifies op { op with args }

/-- Any operation but a phi may read other variables. -/
theorem Operation.Simplifies.args {op : Operation} (ordinary : op.isPhi = false)
    (args : List String)
    : op.Simplifies { op with args } := by
  cases pure : op.opcode.isPure with
  | true => exact .pure ordinary pure ordinary pure rfl rfl
  | false => exact .effect args pure

/-- What becomes of an operation when it reads other variables may become of the operation. -/
theorem Operation.Simplifies.of_args {op next : Operation} {args : List String}
    (ordinary : op.isPhi = false) (simplifies : { op with args }.Simplifies next)
    : op.Simplifies next := by
  cases simplifies with
  | phi phi => exact absurd (phi.symm.trans ordinary) (by simp)
  | pure _ pure ordinary' pure' dest ty => exact .pure ordinary pure ordinary' pure' dest ty
  | effect args impure => exact .effect args impure

/-- A phi is numbered as it is, and nothing else becomes a phi. -/
theorem Operation.Simplifies.isPhi_eq {op next : Operation} (simplifies : op.Simplifies next)
    : next.isPhi = op.isPhi := by
  cases simplifies with
  | phi => rfl
  | pure ordinary _ ordinary' => rw [ordinary, ordinary']
  | effect => rfl

/-- The destination stays as it is. -/
theorem Operation.Simplifies.dest_eq {op next : Operation} (simplifies : op.Simplifies next)
    : next.dest = op.dest := by
  cases simplifies with
  | phi => rfl
  | pure _ _ _ _ dest => exact dest
  | effect => rfl

/-- The declared type stays as it is. -/
theorem Operation.Simplifies.ty_eq {op next : Operation} (simplifies : op.Simplifies next)
    : next.ty = op.ty := by
  cases simplifies with
  | phi => rfl
  | pure _ _ _ _ _ ty => exact ty
  | effect => rfl

/-- A phi stays as it is. -/
theorem Operation.Simplifies.eq_of_isPhi {op next : Operation} (simplifies : op.Simplifies next)
    (phi : op.isPhi = true)
    : next = op := by
  cases simplifies with
  | phi => rfl
  | pure ordinary => exact absurd (phi.symm.trans ordinary) (by simp)
  | effect args impure =>
      exact absurd (phi.symm.trans (isPhi_eq_false_of_impure impure)) (by simp)

/-- Pure operations stay pure, and others do not become pure. -/
theorem Operation.Simplifies.isPure_eq {op next : Operation} (simplifies : op.Simplifies next)
    : next.opcode.isPure = op.opcode.isPure := by
  cases simplifies with
  | phi => rfl
  | pure _ pure _ pure' => rw [pure, pure']
  | effect => rfl

namespace ValueTable

/-- A pure operation stays as it is, or becomes a constant or a copy for its destination. -/
theorem numberPure_simplifies (table : ValueTable) {op : Operation} {dest : String}
    (nums : List Nat) (ordinary : op.isPhi = false) (pure : op.opcode.isPure = true)
    (named : op.dest = some dest)
    : op.Simplifies (table.numberPure op dest nums).2.1 := by
  have self : op.Simplifies op := .args ordinary op.args
  have constant (literal : Literal) : op.Simplifies (op.toConst literal) :=
    .pure ordinary pure rfl rfl rfl rfl
  have numbering := table.pureNumbering dest op nums
  generalize table.numberPure op dest nums = result at numbering ⊢
  cases numbering with
  | @copy num code singleton =>
      cases table.constant? num with
      | none => exact self
      | some literal => exact constant literal
  | unknown | fresh => exact self
  | folded => exact constant _
  | known =>
      dsimp only
      split
      · exact self
      · exact .pure ordinary pure rfl rfl named.symm rfl

/-- An operation that is numbered is simplified. -/
theorem visit_simplifies (table : ValueTable) (op : Operation)
    : op.Simplifies (table.visit op).1 := by
  cases phi : op.isPhi with
  | true =>
      rw [visit_phi op phi]
      exact .phi phi
  | false =>
      cases named : op.dest with
      | none =>
          rw [visit_unnamed op phi named]
          exact .args phi _
      | some dest =>
          cases pure : op.opcode.isPure with
          | false =>
              rw [visit_impure op pure named]
              exact .args phi _
          | true =>
              rw [visit_pure op phi pure named]
              exact .of_args phi (numberPure_simplifies _ _ phi pure named)

/-- The literal that an operation gives with what the table knows of its operands. -/
def result? (table : ValueTable) (op : Operation) : Option Literal :=
  (table.numbersOf op.args).2.folded? op (table.numbersOf op.args).1

/-- A pure operation other than a copy becomes the definition of the literal it gives. -/
theorem visit_of_result? {table : ValueTable} {op : Operation} {literal : Literal}
    (ordinary : op.isPhi = false) (pure : op.opcode.isPure = true) (other : op.opcode ≠ .id)
    (named : op.dest ≠ none) (folded : table.result? op = some literal)
    : (table.visit op).1 = op.toConst literal := by
  obtain ⟨dest, named⟩ := Option.ne_none_iff_exists'.mp named
  have other' : (table.rerouted op).opcode ≠ .id := other
  rw [visit_pure op ordinary pure named, numberPure_folded dest other' folded]
  rfl

end ValueTable

end ThreeAddress
