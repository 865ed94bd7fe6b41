import ThreeAddress.Proofs.Execution.Machine
import ThreeAddress.Proofs.Simplify.Tables

/-! What a value table says of variables, for any notion of value that pure operations respect. The
numbers of a table stand for values: a variable has the value of its number, homes hold theirs, and
known literals and the keys of computations give them. An operation that is numbered and simplified
does what it did before, and the table is right behind it.
-/

namespace ThreeAddress

-----------------------------------------------------------------------------------------
-- Notions of value
-----------------------------------------------------------------------------------------

/-- A notion of value: which results an operation with a code and a literal may have on operands,
and which values equal themselves.
-/
structure Reading (V : Type) where
  Performs : Opcode → Option Literal → List V → V → Prop
  Scalar : V → Prop

namespace Reading

variable {V : Type} (R : Reading V)

/-- The value is what a literal stands for. -/
def Is (literal : Literal) (value : V) : Prop :=
  R.Performs .const (some literal) [] value

/-- The value is what a literal stands for, if one is known. -/
def Known (constant : Option Literal) (value : V) : Prop :=
  ∀ literal, constant = some literal → R.Is literal value

/-- The value equals itself if it is declared to be an integer or a boolean. -/
def Fits (value : V) (ty : Option Ty) : Prop :=
  ty = some .int ∨ ty = some .bool → R.Scalar value

/-- What numbering relies on: literals and operations on known operands have one result, a copy has
the value copied, and operands of commutative operations may be reordered.
-/
structure Congruent : Prop where
  literal_unique {literal : Literal} {value value' : V}
    : R.Is literal value → R.Is literal value' → value = value'
  copied {literal : Option Literal} {operand value : V}
    : R.Performs .id literal [operand] value → value = operand
  copies {code : Opcode} {literal : Option Literal} {operands : List V} {value : V}
    : R.Performs code literal operands value → R.Performs .id none [value] value
  bare {code : Opcode} {literal : Option Literal} {operands : List V} {value : V}
    : code ≠ .const → R.Performs code literal operands value → R.Performs code none operands value
  unique {code : Opcode} {operands : List V} {value value' : V}
    : code ≠ .const → R.Performs code none operands value → R.Performs code none operands value' →
      value = value'
  reorders {code : Opcode} {operands operands' : List V} {value : V}
    : code.isCommutative = true → operands.Perm operands' → R.Performs code none operands value →
      R.Performs code none operands' value

/-- What folding relies on as well: it gives what operations compute. -/
structure Lawful : Prop extends R.Congruent where
  literal {literal : Literal} {operands : List V} {value : V}
    : R.Performs .const (some literal) operands value → R.Is literal value
  folds {code : Opcode} {literal : Option Literal} {constants : List (Option Literal)}
    {operands : List V} {value : V} {result : Literal}
    : List.Forall₂ R.Known constants operands → foldConstant code constants = some result →
      R.Performs code literal operands value → R.Is result value
  compares {code : Opcode} {literal : Option Literal} {operand value : V} {result : Literal}
    : R.Scalar operand → foldSelfComparison code = some result →
      R.Performs code literal [operand, operand] value → R.Is result value

/-- The values with a key when numbers below a bound stand for values. -/
def Gives (bound : Nat) (valueOf : Nat → V) : ValueKey → V → Prop
  | .const literal, value => R.Is literal value
  | .expr code nums, value =>
    (∀ num ∈ nums, num < bound) ∧ R.Performs code none (nums.map valueOf) value

end Reading

-----------------------------------------------------------------------------------------
-- Numbers that stand for values
-----------------------------------------------------------------------------------------

variable {V : Type} {R : Reading V} {table : ValueTable} {valueOf : Nat → V} {env : Env V}

/-- What the table says is true of an environment when numbers stand for these values. -/
structure Reads (R : Reading V) (table : ValueTable) (valueOf : Nat → V) (env : Env V)
    : Prop where
  vars {var : String} {num : Nat}
    : table.vars.lookup var = some num → num < table.values.size ∧ env var = valueOf num
  homes {num : Nat} {home : String}
    : table.home? num = some home → table.vars.lookup home = some num
  constants (num : Nat) : R.Known (table.constant? num) (valueOf num)
  types (num : Nat) : R.Fits (valueOf num) (table.ty? num)
  keys {key : ValueKey} {num : Nat}
    : table.keys.lookup key = some num →
      num < table.values.size ∧ R.Gives table.values.size valueOf key (valueOf num)

/-- A later table is right about the same environment, and old numbers stand for what they did. -/
structure Extends (R : Reading V) (env : Env V) (table : ValueTable) (valueOf : Nat → V)
    (next : ValueTable) (valueOf' : Nat → V)
    : Prop where
  reads : Reads R next valueOf' env
  grows : table.values.size ≤ next.values.size
  keeps : ∀ num < table.values.size, valueOf' num = valueOf num

/-- A number of a later table stands for a value. -/
structure Numbers (R : Reading V) (env : Env V) (table : ValueTable) (valueOf : Nat → V)
    (num : Nat) (next : ValueTable) (value : V) (valueOf' : Nat → V)
    : Prop extends Extends R env table valueOf next valueOf' where
  bound : num < next.values.size
  value : valueOf' num = value

/-- What a key gives depends on old numbers only. -/
theorem Reading.Gives.mono {key : ValueKey} {bound bound' : Nat} {valueOf' : Nat → V} {value : V}
    (gives : R.Gives bound valueOf key value) (grows : bound ≤ bound')
    (keeps : ∀ num < bound, valueOf' num = valueOf num)
    : R.Gives bound' valueOf' key value := by
  cases key with
  | const literal => exact gives
  | expr code nums =>
      obtain ⟨bounded, performs⟩ := gives
      refine ⟨fun num member => Nat.lt_of_lt_of_le (bounded num member) grows, ?_⟩
      rw [List.map_congr_left fun num member => keeps num (bounded num member)]
      exact performs

/-- A table extends itself. -/
theorem Extends.refl (reads : Reads R table valueOf env)
    : Extends R env table valueOf table valueOf :=
  ⟨reads, Nat.le_refl _, fun _ _ => rfl⟩

/-- A number that the table has stands for its value. -/
theorem Numbers.refl (reads : Reads R table valueOf env) {num : Nat}
    (bound : num < table.values.size)
    : Numbers R env table valueOf num table (valueOf num) valueOf :=
  ⟨.refl reads, bound, rfl⟩

/-- A table that extends one that extends a table extends it. -/
theorem Extends.trans {next last : ValueTable} {valueOf' valueOf'' : Nat → V}
    (first : Extends R env table valueOf next valueOf')
    (second : Extends R env next valueOf' last valueOf'')
    : Extends R env table valueOf last valueOf'' where
  reads := second.reads
  grows := Nat.le_trans first.grows second.grows
  keeps num old :=
    (second.keeps num (Nat.lt_of_lt_of_le old first.grows)).trans (first.keeps num old)

/-- The key of an operation gives what the operation computes, also when its operands are sorted. -/
theorem Reading.Congruent.gives_exprKey (congruent : R.Congruent) {code : Opcode}
    (other : code ≠ .const) {literal : Option Literal} {nums : List Nat} {bound : Nat} {value : V}
    (bounded : ∀ num ∈ nums, num < bound)
    (performs : R.Performs code literal (nums.map valueOf) value)
    : R.Gives bound valueOf (ValueTable.exprKey code nums) value := by
  have bare := congruent.bare other performs
  unfold ValueTable.exprKey
  split
  · next commutes =>
      have perm := foldr_insertSorted_perm nums
      exact ⟨fun num member => bounded num (perm.subset member),
        congruent.reorders commutes (perm.map valueOf).symm bare⟩
  · exact ⟨bounded, bare⟩

/-- The key of an operation gives one value. -/
theorem Reading.Congruent.exprKey_unique (congruent : R.Congruent) {code : Opcode}
    (other : code ≠ .const) {nums : List Nat} {bound : Nat} {left right : V}
    (onLeft : R.Gives bound valueOf (ValueTable.exprKey code nums) left)
    (onRight : R.Gives bound valueOf (ValueTable.exprKey code nums) right)
    : left = right :=
  congruent.unique other onLeft.2 onRight.2

namespace Reads

/-- Nothing is said by a table without entries. -/
theorem empty (R : Reading V) (valueOf : Nat → V) (env : Env V) : Reads R .empty valueOf env where
  vars found := by simp [ValueTable.empty] at found
  homes found := by simp [ValueTable.empty, ValueTable.home?] at found
  constants num literal known := by simp [ValueTable.empty, ValueTable.constant?] at known
  types num scalar := by simp [ValueTable.empty, ValueTable.ty?] at scalar
  keys found := by simp [ValueTable.empty] at found

/-- A home has the value it is the home of. -/
theorem eq_home (reads : Reads R table valueOf env) {num : Nat} {home : String}
    (found : table.home? num = some home)
    : env home = valueOf num :=
  (reads.vars (reads.homes found)).2

/-- A new number may stand for any value that is as its literal and its type say. -/
theorem push (reads : Reads R table valueOf env) (constant : Option Literal) {ty : Option Ty}
    {value : V} (known : R.Known constant value) (fits : R.Fits value ty)
    : Numbers R env table valueOf (table.push constant ty).1 (table.push constant ty).2 value
        (Function.update valueOf table.values.size value) := by
  have keeps (num : Nat) (old : num < table.values.size)
      : Function.update valueOf table.values.size value num = valueOf num :=
    Function.update_of_ne (Nat.ne_of_lt old) _ _
  refine {
    reads := ?_
    grows := by simp
    keeps := keeps
    bound := by simp [ValueTable.push]
    value := Function.update_self _ _ _
  }
  constructor
  case vars =>
    intro var num found
    obtain ⟨old, holds⟩ := reads.vars found
    exact ⟨by simp; omega, by rw [keeps num old, holds]⟩
  case homes =>
    intro num home found
    rw [ValueTable.home?_push] at found
    exact reads.homes found
  case constants =>
    intro num
    rw [ValueTable.constant?_push]
    split
    · next last => simpa [last] using known
    · next other => simpa [Function.update_of_ne other] using reads.constants num
  case types =>
    intro num
    rw [ValueTable.ty?_push]
    split
    · next last => simpa [last] using fits
    · next other => simpa [Function.update_of_ne other] using reads.types num
  case keys =>
    intro key num found
    obtain ⟨old, gives⟩ := reads.keys found
    refine ⟨by simp; omega, ?_⟩
    rw [keeps num old]
    exact gives.mono (by simp) keeps

/-- A key may be learned for a number with the value that it gives. -/
theorem learn (reads : Reads R table valueOf env) {key : ValueKey} {num : Nat}
    (bound : num < table.values.size)
    (gives : R.Gives table.values.size valueOf key (valueOf num))
    : Reads R (table.learn key num) valueOf env where
  vars := reads.vars
  homes := reads.homes
  constants := reads.constants
  types := reads.types
  keys {other found} listed := by
    simp only [ValueTable.learn, List.lookup_cons] at listed
    split at listed
    · next same =>
        obtain rfl := Option.some.inj listed
        obtain rfl := beq_iff_eq.mp same
        exact ⟨bound, gives⟩
    · exact reads.keys listed

/-- Binding a variable to a number is right when the variable gets its value. -/
theorem bind (reads : Reads R table valueOf env) {num : Nat} (bound : num < table.values.size)
    (var : String)
    : Reads R (table.bind var num) valueOf (env.assign (some var) (valueOf num)) where
  vars {other found} listed := by
    rw [ValueTable.vars_bind, List.lookup_cons] at listed
    rw [ValueTable.size_bind]
    split at listed
    · next same =>
        obtain rfl := Option.some.inj listed
        exact ⟨bound, if_pos (congrArg some (beq_iff_eq.mp same).symm)⟩
    · next different =>
        obtain ⟨old, holds⟩ := reads.vars listed
        refine ⟨old, ?_⟩
        rw [Env.assign, if_neg, holds]
        intro same
        simp [Option.some.inj same] at different
  homes found := ValueTable.lookup_of_home?_bind var num reads.homes found
  constants other := by
    rw [ValueTable.constant?_bind]
    exact reads.constants other
  types other := by
    rw [ValueTable.ty?_bind]
    exact reads.types other
  keys {key other} listed := by
    rw [ValueTable.keys_bind] at listed
    rw [ValueTable.size_bind]
    exact reads.keys listed

/-- Every variable has a number that stands for its value. -/
theorem numberOf (reads : Reads R table valueOf env) (var : String)
    : ∃ valueOf', Numbers R env table valueOf (table.numberOf var).1 (table.numberOf var).2
        (env var) valueOf' := by
  unfold ValueTable.numberOf
  cases number : table.vars.lookup var with
  | some num =>
      obtain ⟨bound, holds⟩ := reads.vars number
      exact ⟨valueOf, holds ▸ .refl reads bound⟩
  | none =>
      have fits : R.Fits (env var) none := by simp [Reading.Fits]
      have pushed := reads.push none nofun fits
      have bound := pushed.reads.bind pushed.bound var
      rw [pushed.value, Env.assign_self] at bound
      exact ⟨_, ⟨bound, by simp, pushed.keeps⟩, by simpa using pushed.bound, pushed.value⟩

/-- Variables have numbers that stand for their values, by induction on the variables. -/
theorem numbersOf (reads : Reads R table valueOf env) (vars : List String)
    : ∃ valueOf', Extends R env table valueOf (table.numbersOf vars).2 valueOf'
        ∧ (∀ num ∈ (table.numbersOf vars).1, num < (table.numbersOf vars).2.values.size)
        ∧ (table.numbersOf vars).1.map valueOf' = vars.map env := by
  induction vars generalizing table valueOf with
  | nil =>
      exact ⟨valueOf, .refl reads, by simp [ValueTable.numbersOf], rfl⟩
  | cons var vars ih =>
      obtain ⟨first, numbers⟩ := reads.numberOf var
      obtain ⟨last, later, bounded, read⟩ := ih numbers.reads
      have kept : last (table.numberOf var).1 = env var :=
        (later.keeps _ numbers.bound).trans numbers.value
      refine ⟨last, numbers.toExtends.trans later, ?_, ?_⟩
      · simp only [ValueTable.numbersOf, List.mem_cons, forall_eq_or_imp]
        exact ⟨Nat.lt_of_lt_of_le numbers.bound later.grows, bounded⟩
      · simp only [ValueTable.numbersOf, List.map_cons, kept, read]

/-- Redirected uses read the same values. -/
theorem redirect (reads : Reads R table valueOf env) {args : List String} {nums : List Nat}
    (read : nums.map valueOf = args.map env)
    : (table.redirect args nums).map env = args.map env := by
  induction args generalizing nums with
  | nil => rfl
  | cons arg args ih =>
      cases nums with
      | nil => simp at read
      | cons num nums =>
          obtain ⟨first, others⟩ := List.cons.inj read
          have same : env ((table.home? num).getD arg) = env arg := by
            cases found : table.home? num with
            | none => rfl
            | some home => exact (reads.eq_home found).trans first
          exact congrArg₂ List.cons same (ih others)

/-- Folding with what the table knows gives the value computed. -/
theorem is_of_folded? (reads : Reads R table valueOf env) (lawful : R.Lawful) {op : Operation}
    {nums : List Nat} {literal : Literal} {value : V}
    (folded : table.folded? op nums = some literal)
    (performs : R.Performs op.opcode op.value (nums.map valueOf) value)
    : R.Is literal value := by
  unfold ValueTable.folded? at folded
  split at folded
  case h_1 code =>
    rw [code, folded] at performs
    exact lawful.literal performs
  case h_2 left right _ =>
    rcases Option.or_eq_some_iff.mp folded with known | ⟨-, self⟩
    · exact lawful.folds
        (.cons (reads.constants left) (.cons (reads.constants right) .nil)) known performs
    · split at self
      · next same =>
          obtain ⟨rfl, -, scalar⟩ := same
          exact lawful.compares (reads.types left scalar) self performs
      · cases self
  case h_3 =>
    refine lawful.folds ?_ folded performs
    rw [List.forall₂_map_left_iff, List.forall₂_map_right_iff, List.forall₂_same]
    exact fun num _ => reads.constants num

/-- A literal has a number that stands for its value. -/
theorem numberConst (reads : Reads R table valueOf env) (congruent : R.Congruent)
    {literal : Literal} {value : V} (is : R.Is literal value) {ty : Option Ty}
    (fits : R.Fits value ty)
    : ∃ valueOf', Numbers R env table valueOf (table.numberConst literal ty).1
        (table.numberConst literal ty).2 value valueOf' := by
  unfold ValueTable.numberConst
  cases number : table.keys.lookup (.const literal) with
  | some num =>
      obtain ⟨bound, gives⟩ := reads.keys number
      obtain rfl := congruent.literal_unique gives is
      exact ⟨valueOf, .refl reads bound⟩
  | none =>
      have pushed := reads.push literal (fun _ known => by cases known; exact is) fits
      have gives : R.Is literal (Function.update valueOf table.values.size value _) :=
        pushed.value.symm ▸ is
      exact ⟨_, ⟨pushed.reads.learn pushed.bound gives, pushed.grows, pushed.keeps⟩,
        pushed.bound, pushed.value⟩

/-- What a key gives gets a new number. -/
theorem numberFresh (reads : Reads R table valueOf env) {key : ValueKey} {ty : Option Ty}
    {value : V} (gives : R.Gives table.values.size valueOf key value) (fits : R.Fits value ty)
    : ∃ valueOf', Numbers R env table valueOf (table.numberFresh key ty).1
        (table.numberFresh key ty).2 value valueOf' := by
  have pushed := reads.push none nofun fits
  refine ⟨_, ⟨pushed.reads.learn pushed.bound ?_, pushed.grows, pushed.keeps⟩, pushed.bound,
    pushed.value⟩
  rw [Function.update_self]
  exact gives.mono pushed.grows pushed.keeps

/-- What a pure operation computes gets a number, and the operation it becomes computes it, if it is
right to fold the operation.
-/
theorem numberPure (reads : Reads R table valueOf env) (congruent : R.Congruent) (op : Operation)
    (dest : String) {nums : List Nat} {value : V} (bounded : ∀ num ∈ nums, num < table.values.size)
    (read : nums.map valueOf = op.args.map env)
    (performs : R.Performs op.opcode op.value (op.args.map env) value)
    (fits : R.Fits value op.ty)
    (folds : ∀ literal, op.opcode ≠ .id → table.folded? op nums = some literal →
      R.Is literal value)
    : (∃ valueOf', Numbers R env table valueOf (table.numberPure op dest nums).1
          (table.numberPure op dest nums).2.2 value valueOf')
      ∧ R.Performs (table.numberPure op dest nums).2.1.opcode
          (table.numberPure op dest nums).2.1.value
          ((table.numberPure op dest nums).2.1.args.map env) value := by
  have onNums : R.Performs op.opcode op.value (nums.map valueOf) value := read ▸ performs
  have numbering := table.pureNumbering dest op nums
  generalize table.numberPure op dest nums = result at numbering ⊢
  cases numbering with
  | @copy num code singleton =>
      -- a copy shares the number of what it copies
      subst singleton
      rw [code] at onNums
      obtain rfl := congruent.copied onNums
      refine ⟨⟨valueOf, .refl reads (bounded num (by simp))⟩, ?_⟩
      cases known : table.constant? num with
      | none => exact performs
      | some literal => exact reads.constants num literal known
  | unknown => exact ⟨⟨_, reads.push none nofun fits⟩, performs⟩
  | folded other folded =>
      have is := folds _ other folded
      exact ⟨reads.numberConst congruent is fits, is⟩
  | known _ computed _ listed held =>
      obtain ⟨bound, before⟩ := reads.keys listed
      obtain rfl :=
        congruent.exprKey_unique computed before (congruent.gives_exprKey computed bounded onNums)
      refine ⟨⟨valueOf, .refl reads bound⟩, ?_⟩
      dsimp only
      split
      · exact performs
      · rw [List.map_singleton, reads.eq_home held]
        exact congruent.copies performs
  | fresh _ computed =>
      have gives := congruent.gives_exprKey computed bounded onNums
      exact ⟨reads.numberFresh gives fits, performs⟩

end Reads

/-- A variable that gets a value is bound to a number of it. -/
theorem Numbers.bind {num : Nat} {next : ValueTable} {value : V} {valueOf' : Nat → V}
    (numbers : Numbers R env table valueOf num next value valueOf') (var : String)
    : Reads R (next.bind var num) valueOf' (env.assign (some var) value) :=
  numbers.value ▸ numbers.reads.bind numbers.bound var

-----------------------------------------------------------------------------------------
-- Numbered operations
-----------------------------------------------------------------------------------------

/-- The table is right about an environment. -/
def Reading.Explains (R : Reading V) (table : ValueTable) (env : Env V) : Prop :=
  ∃ valueOf, Reads R table valueOf env

/-- A table without entries is right about everything. -/
theorem Reading.explains_empty (R : Reading V) (env : Env V) : R.Explains .empty env :=
  ⟨fun _ => env "", .empty R _ env⟩

namespace Reading.Explains

/-- The table stays right when a phi gives a value to its destination. -/
theorem visit_phi (explains : R.Explains table env) {op : Operation} (phi : op.isPhi = true)
    {value : V} (fits : R.Fits value op.ty)
    : R.Explains (table.visit op).2 (env.assign op.dest value) := by
  obtain ⟨valueOf, reads⟩ := explains
  rw [ValueTable.visit_phi op phi]
  cases op.dest with
  | some dest => exact ⟨_, (reads.push none nofun fits).bind dest⟩
  | none => exact ⟨valueOf, reads⟩

/-- An operation that has effects or no destination only reads other variables, which have the same
values.
-/
theorem visit_plain (explains : R.Explains table env) {op : Operation}
    (ordinary : op.isPhi = false) (plain : op.opcode.isPure = true → op.dest = none)
    : ∃ args, (table.visit op).1 = { op with args } ∧ args.map env = op.args.map env := by
  obtain ⟨valueOf, reads⟩ := explains
  obtain ⟨valueOf', extended, -, read⟩ := reads.numbersOf op.args
  have visited : (table.visit op).1 = table.rerouted op := by
    cases named : op.dest with
    | none => rw [ValueTable.visit_unnamed op ordinary named]
    | some dest =>
        have impure : op.opcode.isPure = false :=
          Bool.eq_false_iff.mpr fun pure => by simp [plain pure] at named
        rw [ValueTable.visit_impure op impure named]
  exact ⟨_, visited, extended.reads.redirect read⟩

/-- The table stays right when an operation that has effects or no destination gives a value to its
destination.
-/
theorem visit_plain_assign (explains : R.Explains table env) {op : Operation}
    (ordinary : op.isPhi = false) (plain : op.opcode.isPure = true → op.dest = none) {value : V}
    (fits : R.Fits value op.ty)
    : R.Explains (table.visit op).2 (env.assign op.dest value) := by
  obtain ⟨valueOf, reads⟩ := explains
  obtain ⟨valueOf', extended, -, -⟩ := reads.numbersOf op.args
  cases named : op.dest with
  | none =>
      rw [ValueTable.visit_unnamed op ordinary named, Env.assign_none]
      exact ⟨_, extended.reads⟩
  | some dest =>
      have impure : op.opcode.isPure = false :=
        Bool.eq_false_iff.mpr fun pure => by simp [plain pure] at named
      rw [ValueTable.visit_impure op impure named]
      exact ⟨_, (extended.reads.push none nofun fits).bind dest⟩

/-- An operation with effects only reads other variables, which have the same values. -/
theorem visit_effect (explains : R.Explains table env) {op : Operation}
    (impure : op.opcode.isPure = false)
    : ∃ args, (table.visit op).1 = { op with args } ∧ args.map env = op.args.map env :=
  explains.visit_plain (Operation.isPhi_eq_false_of_impure impure) fun pure => by
    simp [impure] at pure

/-- A simplified operation does what the operation did, and the table stays right, if it is right to
fold the operation.
-/
theorem visit_of_folds (explains : R.Explains table env) (congruent : R.Congruent)
    {op : Operation} (ordinary : op.isPhi = false) {value : V} (fits : R.Fits value op.ty)
    (performs : op.opcode.isPure = true → R.Performs op.opcode op.value (op.args.map env) value)
    (folds : ∀ literal, op.opcode.isPure = true → op.opcode ≠ .id →
      table.result? op = some literal → R.Is literal value)
    : R.Explains (table.visit op).2 (env.assign op.dest value)
      ∧ (op.opcode.isPure = true → R.Performs (table.visit op).1.opcode (table.visit op).1.value
          ((table.visit op).1.args.map env) value) := by
  by_cases plain : op.opcode.isPure = true → op.dest = none
  · obtain ⟨args, visited, same⟩ := explains.visit_plain ordinary plain
    refine ⟨explains.visit_plain_assign ordinary plain fits, fun pure => ?_⟩
    simp only [visited, same]
    exact performs pure
  · obtain ⟨pure, named⟩ := Classical.not_imp.mp plain
    obtain ⟨valueOf, reads⟩ := explains
    obtain ⟨valueOf', extended, bounded, read⟩ := reads.numbersOf op.args
    obtain ⟨dest, named⟩ := Option.ne_none_iff_exists'.mp named
    have same : (table.rerouted op).args.map env = op.args.map env :=
      extended.reads.redirect read
    obtain ⟨⟨_, numbers⟩, performs'⟩ := extended.reads.numberPure congruent (table.rerouted op) dest
      bounded (read.trans same.symm) (same.symm ▸ performs pure) fits (folds · pure)
    rw [ValueTable.visit_pure op ordinary pure named, named]
    exact ⟨⟨_, numbers.bind dest⟩, fun _ => performs'⟩

/-- Folding an operation with what the table knows gives the value computed. -/
theorem is_of_result? (explains : R.Explains table env) (lawful : R.Lawful) {op : Operation}
    {literal : Literal} {value : V} (folded : table.result? op = some literal)
    (performs : R.Performs op.opcode op.value (op.args.map env) value)
    : R.Is literal value := by
  obtain ⟨valueOf, reads⟩ := explains
  obtain ⟨valueOf', extended, -, read⟩ := reads.numbersOf op.args
  exact extended.reads.is_of_folded? lawful folded (read.symm ▸ performs)

/-- A simplified operation does what the operation did, and the table stays right. -/
theorem visit (explains : R.Explains table env) (lawful : R.Lawful) {op : Operation}
    (ordinary : op.isPhi = false) {value : V} (fits : R.Fits value op.ty)
    (performs : op.opcode.isPure = true → R.Performs op.opcode op.value (op.args.map env) value)
    : R.Explains (table.visit op).2 (env.assign op.dest value)
      ∧ (op.opcode.isPure = true → R.Performs (table.visit op).1.opcode (table.visit op).1.value
          ((table.visit op).1.args.map env) value) :=
  explains.visit_of_folds lawful.toCongruent ordinary fits performs
    fun _ pure _ folded => explains.is_of_result? lawful folded (performs pure)

end Reading.Explains

end ThreeAddress
