import ThreeAddress.Proofs.Simplify.Cleanup
import ThreeAddress.Proofs.Simplify.Folding
import ThreeAddress.Proofs.Simplify.Readings

/-! Declared types under value numbering. A declared type is read as a value, so that what is said
of numbers and values holds of types: variables with one number are declared with one type. Literals
have no type of their own. What is said of them needs that each literal of a block is declared with
one type, and this holds if all integers among the literals are, and all floating point numbers.
-/

namespace ThreeAddress

-----------------------------------------------------------------------------------------
-- Well-typed functions
-----------------------------------------------------------------------------------------

/-- The types of operands and of a result fit an operation. Copies and arithmetic have operands of
the type of the result, comparisons have two operands of one type and a boolean result, and logic
has booleans only. Nothing is asked of other operations.
-/
def Opcode.HasTypes (code : Opcode) (operands : List (Option Ty)) (result : Option Ty) : Prop :=
  if code = .id ∨ code.isArithmetic = true then
    operands ≠ [] ∧ ∀ operand ∈ operands, operand ≠ none ∧ operand = result
  else if code.isComparison = true then
    result = some .bool ∧ operands.length = 2
      ∧ ∀ left ∈ operands, left ≠ none ∧ ∀ right ∈ operands, left = right
  else if code.isLogic = true then
    result = some .bool ∧ ∀ operand ∈ operands, operand = some .bool
  else True

instance (code : Opcode) (operands : List (Option Ty)) (result : Option Ty)
    : Decidable (code.HasTypes operands result) := by
  unfold Opcode.HasTypes
  infer_instance

/-- The declared types of what an operation reads and defines fit it, and it declares the type that
its destination has.
-/
structure Operation.WellTyped (typeOf : String → Option Ty) (op : Operation) : Prop where
  types : op.opcode.HasTypes (op.args.map typeOf) (op.dest.bind typeOf)
  declares : ∀ dest ∈ op.dest, op.ty ≠ none ∧ op.ty = typeOf dest

instance (typeOf : String → Option Ty) (op : Operation) : Decidable (op.WellTyped typeOf) :=
  decidable_of_iff
    (op.opcode.HasTypes (op.args.map typeOf) (op.dest.bind typeOf)
      ∧ ∀ dest ∈ op.dest, op.ty ≠ none ∧ op.ty = typeOf dest)
    ⟨fun ⟨types, declares⟩ => ⟨types, declares⟩, fun ⟨types, declares⟩ => ⟨types, declares⟩⟩

namespace Function

/-- The type that a variable is declared with first. -/
def declaredTy? (f : Function) (var : String) : Option Ty :=
  (f.typedDefinitions.lookup var).join

/-- Every variable has one declared type over the parameters and definitions, and declared types fit
the operations.
-/
structure WellTyped (f : Function) : Prop where
  params : ∀ p ∈ f.params, f.declaredTy? p.name = some p.ty
  operations : ∀ op ∈ f.operations, op.WellTyped f.declaredTy?

instance (f : Function) : Decidable f.WellTyped :=
  decidable_of_iff
    ((∀ p ∈ f.params, f.declaredTy? p.name = some p.ty)
      ∧ ∀ op ∈ f.operations, op.WellTyped f.declaredTy?)
    ⟨fun ⟨params, operations⟩ => ⟨params, operations⟩,
      fun ⟨params, operations⟩ => ⟨params, operations⟩⟩

end Function

-----------------------------------------------------------------------------------------
-- Types as values
-----------------------------------------------------------------------------------------

/-- If the operation defines a variable for a literal, then it declares the type of the literal. -/
def Operation.DeclaresLiteral (tyOf : Literal → Ty) (op : Operation) : Prop :=
  op.opcode = .const → op.dest ≠ none → ∀ literal ∈ op.value, op.ty = some (tyOf literal)

instance (tyOf : Literal → Ty) (op : Operation) : Decidable (op.DeclaresLiteral tyOf) := by
  unfold Operation.DeclaresLiteral
  infer_instance

/-- Each literal is declared with one type. -/
def OneTypePerLiteral (ops : List Operation) : Prop :=
  ∃ tyOf : Literal → Ty, ∀ op ∈ ops, op.DeclaresLiteral tyOf

/-- Declared types as a notion of value: constants have the type of their literal, and other
operations that compute have a type that fits those of the operands.
-/
def typeReading (tyOf : Literal → Ty) : Reading (Option Ty) where
  Performs code literal operands value :=
    value ≠ none ∧
      if code = .const then ∀ known, literal = some known → value = some (tyOf known)
      else code.isPure = true ∧ code ≠ .phi ∧ code.HasTypes operands value
  Scalar _ := True

section TypeReading

variable {tyOf : Literal → Ty} {code : Opcode} {literal : Option Literal}
  {operands : List (Option Ty)} {value : Option Ty}

/-- A literal stands for its type. -/
theorem typeReading_is {literal : Literal}
    : (typeReading tyOf).Is literal value ↔ value = some (tyOf literal) := by
  simp only [Reading.Is, typeReading, if_true, Option.some.injEq, forall_eq']
  exact and_iff_right_of_imp fun same => by simp [same]

/-- What is not a constant has a type that fits the operands. -/
theorem typeReading_performs (other : code ≠ .const)
    : (typeReading tyOf).Performs code literal operands value
      ↔ value ≠ none ∧ code.isPure = true ∧ code ≠ .phi ∧ code.HasTypes operands value := by
  simp only [typeReading, if_neg other]

/-- The type of a result fits the operands. -/
theorem hasTypes_of_performs (performs : (typeReading tyOf).Performs code literal operands value)
    : code.HasTypes operands value := by
  by_cases other : code = .const
  · subst other
    trivial
  · exact ((typeReading_performs other).mp performs).2.2.2

/-- The types of the operands of an operation that computes determine the type of the result. -/
theorem Opcode.HasTypes.unique {value' : Option Ty} (pure : code.isPure = true)
    (ordinary : code ≠ .phi) (other : code ≠ .const) (types : code.HasTypes operands value)
    (types' : code.HasTypes operands value')
    : value = value' := by
  unfold HasTypes at types types'
  split at types
  · next copies =>
      rw [if_pos copies] at types'
      obtain ⟨operand, member⟩ := List.exists_mem_of_ne_nil _ types.1
      exact (types.2 operand member).2.symm.trans (types'.2 operand member).2
  · next plain =>
      rw [if_neg plain] at types'
      split at types
      · next compares =>
          rw [if_pos compares] at types'
          exact types.1.trans types'.1.symm
      · next compares =>
          rw [if_neg compares] at types'
          split at types
          · next logic =>
              rw [if_pos logic] at types'
              exact types.1.trans types'.1.symm
          · next logic =>
              simp only [not_or] at plain
              simp [isPure, plain, compares, logic] at pure

/-- Operands may be given in another order. -/
theorem Opcode.HasTypes.perm {operands' : List (Option Ty)} (perm : operands.Perm operands')
    (types : code.HasTypes operands value)
    : code.HasTypes operands' value := by
  have nil : operands = [] ↔ operands' = [] := by
    rw [← List.length_eq_zero_iff, ← List.length_eq_zero_iff, perm.length_eq]
  simpa only [HasTypes, ne_eq, nil, perm.mem_iff, perm.length_eq] using types

/-- Numbering may rely on declared types. -/
theorem congruent_typeReading (tyOf : Literal → Ty) : (typeReading tyOf).Congruent where
  literal_unique is is' := (typeReading_is.mp is).trans (typeReading_is.mp is').symm
  copied performs := by
    obtain ⟨-, -, -, types⟩ := (typeReading_performs (by decide)).mp performs
    exact (types.2 _ (List.mem_singleton_self _)).2.symm
  copies performs := by
    refine (typeReading_performs (by decide)).mpr ⟨performs.1, rfl, by decide, by simp, ?_⟩
    simpa using performs.1
  bare other performs := by
    rw [typeReading_performs other] at performs ⊢
    exact performs
  unique other performs performs' := by
    obtain ⟨-, pure, ordinary, types⟩ := (typeReading_performs other).mp performs
    exact types.unique pure ordinary other (hasTypes_of_performs performs')
  reorders {code _ _ _} commutes perm performs := by
    have other : code ≠ .const := by rintro rfl; cases commutes
    rw [typeReading_performs other] at performs ⊢
    exact ⟨performs.1, performs.2.1, performs.2.2.1, performs.2.2.2.perm perm⟩

end TypeReading

-----------------------------------------------------------------------------------------
-- Value numbering keeps functions well typed
-----------------------------------------------------------------------------------------

section Numbered

variable {tyOf : Literal → Ty} {typeOf : Env (Option Ty)} {table : ValueTable} {op : Operation}

/-- An operation that is folded declares the type of the literal. -/
theorem ty_eq_of_result? {literal : Literal} (ordinary : op.isPhi = false)
    (pure : op.opcode.isPure = true) (other : op.opcode ≠ .id) (named : op.dest ≠ none)
    (folded : table.result? op = some literal)
    (literals : (table.visit op).1.DeclaresLiteral tyOf)
    : op.ty = some (tyOf literal) := by
  rw [ValueTable.visit_of_result? ordinary pure other named folded] at literals
  exact literals rfl named literal rfl

/-- A constant declares the type of its literal if it does when it has been numbered. -/
theorem declaresLiteral_of_visit (literals : (table.visit op).1.DeclaresLiteral tyOf)
    : op.DeclaresLiteral tyOf := by
  intro code named literal known
  have carried : table.result? op = op.value := by
    simp only [ValueTable.result?, ValueTable.folded?, code]
  refine ty_eq_of_result? ?_ ?_ ?_ named (carried.trans known) literals <;>
    simp [Operation.isPhi, Opcode.isPure, code]

/-- A well-typed operation declares the type that its destination has. -/
theorem Operation.WellTyped.ty_eq (typed : op.WellTyped typeOf) (named : op.dest ≠ none)
    : op.ty ≠ none ∧ op.ty = op.dest.bind typeOf := by
  obtain ⟨dest, named⟩ := Option.ne_none_iff_exists'.mp named
  rw [named]
  exact typed.declares dest named

/-- The destination of a well-typed operation has a type that the operation gives. -/
theorem Operation.WellTyped.performs (typed : op.WellTyped typeOf) (ordinary : op.isPhi = false)
    (pure : op.opcode.isPure = true) (named : op.dest ≠ none)
    (literals : op.DeclaresLiteral tyOf)
    : (typeReading tyOf).Performs op.opcode op.value (op.args.map typeOf)
        (op.dest.bind typeOf) := by
  obtain ⟨some, same⟩ := typed.ty_eq named
  refine ⟨same ▸ some, ?_⟩
  split
  · next code => exact same ▸ literals code named
  · have notPhi : op.opcode ≠ .phi := by simpa [Operation.isPhi] using ordinary
    exact ⟨pure, notPhi, typed.types⟩

/-- If the numbers of a table stand for types, then a well-typed operation stays well typed when it
is numbered, and they still do behind it.
-/
theorem visit_wellTyped (explains : (typeReading tyOf).Explains table typeOf)
    (typed : op.WellTyped typeOf) (literals : (table.visit op).1.DeclaresLiteral tyOf)
    : (typeReading tyOf).Explains (table.visit op).2 typeOf
      ∧ (table.visit op).1.WellTyped typeOf := by
  have fits : (typeReading tyOf).Fits (op.dest.bind typeOf) op.ty := fun _ => trivial
  have assigned : typeOf.assign op.dest (op.dest.bind typeOf) = typeOf := by
    cases op.dest with
    | none => exact Env.assign_none _ _
    | some dest => exact Env.assign_self _ dest
  have simplifies := table.visit_simplifies op
  cases phi : op.isPhi with
  | true =>
      refine ⟨assigned ▸ explains.visit_phi phi fits, ?_⟩
      rw [simplifies.eq_of_isPhi phi]
      exact typed
  | false =>
      by_cases plain : op.opcode.isPure = true → op.dest = none
      · obtain ⟨args, visited, same⟩ := explains.visit_plain phi plain
        refine ⟨assigned ▸ explains.visit_plain_assign phi plain fits, ?_⟩
        rw [visited]
        exact ⟨same.symm ▸ typed.types, typed.declares⟩
      · obtain ⟨pure, named⟩ := Classical.not_imp.mp plain
        have performs := typed.performs phi pure named (declaresLiteral_of_visit literals)
        have folds (literal : Literal) (other : op.opcode ≠ .id)
            (folded : table.result? op = some literal)
            : (typeReading tyOf).Is literal (op.dest.bind typeOf) := by
          rw [typeReading_is, ← (typed.ty_eq named).2]
          exact ty_eq_of_result? phi pure other named folded literals
        obtain ⟨after, performs'⟩ := explains.visit_of_folds (congruent_typeReading tyOf) phi fits
          (fun _ => performs) fun literal _ => folds literal
        refine ⟨assigned ▸ after, ?_, ?_⟩
        · rw [simplifies.dest_eq]
          exact hasTypes_of_performs (performs' pure)
        · rw [simplifies.dest_eq, simplifies.ty_eq]
          exact typed.declares

/-- Numbered operations are well typed if the operations are, by induction on the operations. -/
theorem numberOperations_wellTyped (explains : (typeReading tyOf).Explains table typeOf)
    {ops : List Operation} (typed : ∀ op ∈ ops, op.WellTyped typeOf)
    (literals : ∀ op ∈ numberOperations table ops, op.DeclaresLiteral tyOf)
    : ∀ op ∈ numberOperations table ops, op.WellTyped typeOf := by
  induction ops generalizing table with
  | nil => exact fun _ member => absurd member List.not_mem_nil
  | cons op rest ih =>
      rw [numberOperations, List.forall_mem_cons] at literals
      rw [List.forall_mem_cons] at typed
      obtain ⟨after, first⟩ := visit_wellTyped explains typed.1 literals.1
      rw [numberOperations, List.forall_mem_cons]
      exact ⟨first, ih after typed.2 literals.2⟩

end Numbered

-----------------------------------------------------------------------------------------
-- Literals of a kind
-----------------------------------------------------------------------------------------

/-- The types of literals if integers and floating point numbers are declared with these types. -/
def Literal.tyWith (ints floats : Ty) : Literal → Ty
  | .int _ => ints
  | .bool _ => .bool
  | .float _ => floats

section Kinds

variable {code : Opcode} {operands : List (Option Ty)} {value : Option Ty}

/-- Comparisons and logic have boolean results. -/
theorem Opcode.HasTypes.eq_bool (boolean : code.isComparison = true ∨ code.isLogic = true)
    (types : code.HasTypes operands value)
    : value = some .bool := by
  cases code <;> simp_all [HasTypes, isComparison, isLogic, isArithmetic]

/-- Folding gives literals of the declared type if literals of a kind have one type. -/
theorem lawful_typeReading (ints floats : Ty)
    : (typeReading (Literal.tyWith ints floats)).Lawful where
  toCongruent := congruent_typeReading _
  literal performs := ⟨performs.1, performs.2⟩
  folds {code _ _ _ value _} known folded performs := by
    have types := hasTypes_of_performs performs
    rw [typeReading_is]
    rcases foldConstant_cases folded with ⟨boolean, flag, rfl⟩ | ⟨arithmetic, rest⟩
    · exact types.eq_bool boolean
    · obtain ⟨left, right, number, rfl, rfl⟩ := rest
      obtain _ | ⟨onLeft, -⟩ := known
      have first := typeReading_is.mp (onLeft _ rfl)
      rw [Opcode.HasTypes, if_pos (.inr arithmetic)] at types
      exact (types.2 _ List.mem_cons_self).2.symm.trans first
  compares {code _ _ _ _} _ folded performs := by
    have boolean : code.isComparison = true := by cases code <;> cases folded <;> rfl
    rw [typeReading_is, (hasTypes_of_performs performs).eq_bool (.inl boolean)]
    cases code <;> cases folded <;> rfl

variable {ints floats : Ty} {typeOf : Env (Option Ty)} {table : ValueTable}

/-- A numbered operation declares the type of a literal if literals of a kind have one type. -/
theorem visit_declaresLiteral {op : Operation}
    (explains : (typeReading (Literal.tyWith ints floats)).Explains table typeOf)
    (typed : op.WellTyped typeOf) (literals : op.DeclaresLiteral (Literal.tyWith ints floats))
    : (table.visit op).1.DeclaresLiteral (Literal.tyWith ints floats) := by
  intro code named literal known
  have simplifies := table.visit_simplifies op
  have phi : op.isPhi = false := by
    rw [← simplifies.isPhi_eq, Operation.isPhi, code]
    rfl
  have pure : op.opcode.isPure = true := by
    rw [← simplifies.isPure_eq, code]
    rfl
  rw [simplifies.dest_eq] at named
  have performs := typed.performs phi pure named literals
  obtain ⟨-, performs'⟩ :=
    explains.visit (lawful_typeReading ints floats) phi (fun _ => trivial) fun _ => performs
  have type := (performs' pure).2
  rw [if_pos code] at type
  rw [simplifies.ty_eq, (typed.ty_eq named).2]
  exact type literal known

/-- Numbered operations declare the types of literals if the operations do, by induction on the
operations.
-/
theorem numberOperations_declaresLiteral
    (explains : (typeReading (Literal.tyWith ints floats)).Explains table typeOf)
    {ops : List Operation} (typed : ∀ op ∈ ops, op.WellTyped typeOf)
    (literals : ∀ op ∈ ops, op.DeclaresLiteral (Literal.tyWith ints floats))
    : ∀ op ∈ numberOperations table ops, op.DeclaresLiteral (Literal.tyWith ints floats) := by
  induction ops generalizing table with
  | nil => exact fun _ member => absurd member List.not_mem_nil
  | cons op rest ih =>
      rw [List.forall_mem_cons] at typed literals
      have first := visit_declaresLiteral explains typed.1 literals.1
      obtain ⟨after, -⟩ := visit_wellTyped explains typed.1 first
      rw [numberOperations, List.forall_mem_cons]
      exact ⟨first, ih after typed.2 literals.2⟩

end Kinds

-----------------------------------------------------------------------------------------
-- Numbered functions
-----------------------------------------------------------------------------------------

namespace Function

/-- A piece of a numbered function is a piece of the function with its operations numbered. -/
theorem exists_piece_of_numberValues {f : Function} {next : BasicBlock}
    (here : next ∈ f.numberValues.1.pieces)
    : ∃ block ∈ f.pieces, next.body = numberOperations .empty block.body := by
  rw [f.rewrites_numberValues.pieces_eq] at here
  obtain ⟨block, own, same⟩ := List.mem_map.mp here
  exact ⟨block, own, congrArg BasicBlock.body same.symm⟩

/-- The operations of a piece of a well-typed function are well typed. -/
theorem WellTyped.piece {f : Function} (typed : f.WellTyped) {block : BasicBlock}
    (here : block ∈ f.pieces)
    : ∀ op ∈ block.body, op.WellTyped f.declaredTy? := by
  intro op inside
  refine typed.operations op ?_
  rw [← flatMap_body_pieces]
  exact List.mem_flatMap.mpr ⟨block, here, inside⟩

/-- Value numbering keeps the types that variables are declared with. -/
theorem declaredTy?_numberValues (f : Function) : f.numberValues.1.declaredTy? = f.declaredTy? := by
  funext var
  rw [declaredTy?, declaredTy?, typedDefinitions_numberValues]

/-- If each block of a well-typed function, and what stands in front of the first one, declares the
integers among its literals with one type, floating point numbers with one type and booleans as
booleans, then no literal is declared with two types in a block when values have been numbered.
-/
theorem oneTypePerLiteral_numberValues {f : Function} (typed : f.WellTyped)
    (kinds : ∀ block ∈ f.pieces, ∃ ints floats,
      ∀ op ∈ block.body, op.DeclaresLiteral (Literal.tyWith ints floats))
    : ∀ block ∈ f.numberValues.1.pieces, OneTypePerLiteral block.body := by
  intro next here
  obtain ⟨block, own, numbered⟩ := exists_piece_of_numberValues here
  obtain ⟨ints, floats, literals⟩ := kinds block own
  rw [numbered]
  have nothing := (typeReading (Literal.tyWith ints floats)).explains_empty f.declaredTy?
  exact ⟨_, numberOperations_declaresLiteral nothing (typed.piece own) literals⟩

/-- A well-typed function stays well typed under value numbering, unless a literal is declared with
two types in a block of the result, or in front of the first block. That cannot happen if each block
declares the integers among its literals with one type, floating point numbers with one type and
booleans as booleans.
-/
theorem wellTyped_numberValues {f : Function} (typed : f.WellTyped)
    : ((∀ block ∈ f.numberValues.1.pieces, OneTypePerLiteral block.body) →
        f.numberValues.1.WellTyped)
      ∧ ((∀ block ∈ f.pieces, ∃ ints floats,
          ∀ op ∈ block.body, op.DeclaresLiteral (Literal.tyWith ints floats)) →
        f.numberValues.1.WellTyped) := by
  have ofResult (literals : ∀ block ∈ f.numberValues.1.pieces, OneTypePerLiteral block.body)
      : f.numberValues.1.WellTyped := by
    refine ⟨f.declaredTy?_numberValues.symm ▸ typed.params, ?_⟩
    rw [declaredTy?_numberValues, ← flatMap_body_pieces]
    intro op member
    obtain ⟨next, here, inside⟩ := List.mem_flatMap.mp member
    obtain ⟨tyOf, literals⟩ := literals next here
    obtain ⟨block, own, numbered⟩ := exists_piece_of_numberValues here
    rw [numbered] at literals inside
    have nothing := (typeReading tyOf).explains_empty f.declaredTy?
    exact numberOperations_wellTyped nothing (typed.piece own) literals op inside
  exact ⟨ofResult, fun kinds => ofResult (oneTypePerLiteral_numberValues typed kinds)⟩

end Function

/-- A halving in a loop. One block counts with integers, and another writes floating point numbers
as integers.
-/
def halvingLoop : Function where
  name := "halve"
  params := [{ name := "x", ty := .float }, { name := "n", ty := .int }]
  body := [
    .label "loop",
    .operation { opcode := .const, dest := "one", ty := some .int, value := some (.int 1) },
    .operation { opcode := .sub, dest := "n", ty := some .int, args := ["n", "one"] },
    .operation { opcode := .const, dest := "step", ty := some .int, value := some (.int 1) },
    .operation { opcode := .lt, dest := "done", ty := some .bool, args := ["n", "step"] },
    .operation { opcode := .br, args := ["done"], labels := ["half", "end"] },
    .label "half",
    .operation { opcode := .const, dest := "two", ty := some .float, value := some (.int 2) },
    .operation { opcode := .id, dest := "by", ty := some .float, args := ["two"] },
    .operation { opcode := .div, dest := "y", ty := some .float, args := ["x", "by"] },
    .operation { opcode := .div, dest := "x", ty := some .float, args := ["x", "two"] },
    .operation { opcode := .jmp, labels := ["loop"] },
    .label "end",
    .operation { opcode := .ret, args := ["x"] }]

/-- The loop is well typed, and it still is when its values have been numbered. In every block
integers among the literals are declared with one type.
-/
theorem wellTyped_numberValues_halvingLoop
    : halvingLoop.WellTyped
      ∧ (∀ block ∈ halvingLoop.pieces, ∃ ints floats,
        ∀ op ∈ block.body, op.DeclaresLiteral (Literal.tyWith ints floats))
      ∧ (∀ block ∈ halvingLoop.numberValues.1.pieces, OneTypePerLiteral block.body)
      ∧ halvingLoop.numberValues.1.WellTyped := by
  have typed : halvingLoop.WellTyped := by decide
  have kinds : ∀ block ∈ halvingLoop.pieces, ∃ ints floats,
      ∀ op ∈ block.body, op.DeclaresLiteral (Literal.tyWith ints floats) := by
    have declares : ∀ block ∈ halvingLoop.pieces,
        (∀ op ∈ block.body, op.DeclaresLiteral (Literal.tyWith .int .float))
          ∨ ∀ op ∈ block.body, op.DeclaresLiteral (Literal.tyWith .float .float) := by
      decide
    exact fun block here => (declares block here).elim (⟨_, _, ·⟩) (⟨_, _, ·⟩)
  have literals : ∀ block ∈ halvingLoop.numberValues.1.pieces, OneTypePerLiteral block.body := by
    have declares : ∀ block ∈ halvingLoop.numberValues.1.pieces,
        (∀ op ∈ block.body, op.DeclaresLiteral fun _ => .int)
          ∨ ∀ op ∈ block.body, op.DeclaresLiteral fun _ => .float := by
      decide
    exact fun block here => (declares block here).elim (⟨_, ·⟩) (⟨_, ·⟩)
  exact ⟨typed, kinds, literals, (Function.wellTyped_numberValues typed).2 kinds⟩

/-- A sum of a parameter and one, where an integer is one as well. -/
def mixedLiterals : Function where
  name := "f"
  params := [{ name := "x", ty := .float }]
  body := [
    .operation { opcode := .const, dest := "a", ty := some .int, value := some (.int 1) },
    .operation { opcode := .const, dest := "b", ty := some .float, value := some (.int 1) },
    .operation { opcode := .add, dest := "c", ty := some .float, args := ["b", "x"] },
    .operation { opcode := .print, args := ["c"] }]

/-- Literals are numbered whatever type they are declared with: where one literal is declared with
two types, value numbering adds an integer to a floating point number.
-/
theorem not_wellTyped_numberValues_mixedLiterals
    : mixedLiterals.WellTyped ∧ ¬ mixedLiterals.numberValues.1.WellTyped := by
  decide

end ThreeAddress
