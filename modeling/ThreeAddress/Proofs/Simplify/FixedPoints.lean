import ThreeAddress.Proofs.Simplify.DeadTails
import ThreeAddress.Proofs.Simplify.Renumbering
import ThreeAddress.Proofs.Simplify.Typing

/-! Repeated passes come to rest. A pass leaves nothing to do for itself, and what removal leaves to
do for value numbering it pays for with instructions: a round of passes behind another one that
removes nothing leaves nothing to do for any of them. So there is at most one round more than there
are instructions.
-/

namespace ThreeAddress

-----------------------------------------------------------------------------------------
-- Literals that agree with themselves
-----------------------------------------------------------------------------------------

/-- The literal that the operation carries, if it does, is not NaN. -/
def Operation.WithoutNaN (op : Operation) : Prop :=
  ∀ literal ∈ op.value, literal.isNaN = false

/-- No operation of the function carries NaN. -/
def Function.WithoutNaN (f : Function) : Prop :=
  ∀ op ∈ f.operations, op.WithoutNaN

/-- All that is known of values is that no literal is NaN. -/
def numericReading : Reading Unit where
  Performs _ literal _ _ := ∀ known, literal = some known → known.isNaN = false
  Scalar _ := True

/-- Folding does not give NaN, as it gives integers and booleans. -/
theorem lawful_numericReading : numericReading.Lawful where
  literal_unique _ _ := rfl
  copied _ := rfl
  copies _ := nofun
  bare _ _ := nofun
  unique _ _ _ := rfl
  reorders _ _ performs := performs
  literal performs := performs
  folds _ folded _ := by
    intro known same
    obtain rfl := Option.some.inj same
    rcases foldConstant_cases folded with ⟨-, flag, rfl⟩ | ⟨-, _, _, number, -, rfl⟩ <;> rfl
  compares {code _ _ _ _} _ folded _ := by
    intro known same
    obtain rfl := Option.some.inj same
    cases code <;> cases folded <;> rfl

section

variable {table : ValueTable} {op : Operation}

/-- A numbered operation carries no NaN, if the table knows of none. -/
theorem visit_withoutNaN {env : Env Unit} (explains : numericReading.Explains table env)
    (numbers : op.WithoutNaN)
    : (table.visit op).1.WithoutNaN ∧ numericReading.Explains (table.visit op).2 env := by
  have unit (env' : Env Unit) : env' = env := funext fun _ => rfl
  have fits : numericReading.Fits () op.ty := fun _ => trivial
  cases phi : op.isPhi with
  | true =>
      rw [(table.visit_simplifies op).eq_of_isPhi phi]
      exact ⟨numbers, unit _ ▸ explains.visit_phi phi fits⟩
  | false =>
      obtain ⟨after, performs⟩ :=
        explains.visit lawful_numericReading phi fits fun _ => numbers
      refine ⟨?_, unit _ ▸ after⟩
      cases pure : op.opcode.isPure with
      | true => exact performs pure
      | false =>
          obtain ⟨args, same, -⟩ := explains.visit_effect pure
          rw [same]
          exact numbers

/-- A numbered body carries no NaN, by induction on the body. -/
theorem numberValues_withoutNaN {env : Env Unit} (explains : numericReading.Explains table env)
    {body : List Instruction} (numbers : ∀ op, .operation op ∈ body → op.WithoutNaN)
    : ∀ op, .operation op ∈ (numberValues table body).1 → op.WithoutNaN := by
  induction body generalizing table with
  | nil => simp [numberValues]
  | cons instruction rest ih =>
      have later := fun op member => numbers op (List.mem_cons_of_mem _ member)
      cases instruction with
      | label name => simpa [numberValues] using ih (numericReading.explains_empty env) later
      | operation op =>
          obtain ⟨here, next⟩ := visit_withoutNaN explains (numbers op List.mem_cons_self)
          simpa [numberValues, here] using ih next later

/-- An operation without NaN agrees with itself. -/
theorem Operation.WithoutNaN.agrees_self (numbers : op.WithoutNaN) : op.agrees op = true := by
  unfold Operation.agrees
  cases value : op.value with
  | none => simp
  | some literal =>
      have number := numbers literal value
      cases literal with
      | float x =>
          have apart : x.isNaN = false := number
          simp [Literal.agrees, Double.agrees, apart]
      | int | bool => simp [Literal.agrees]

/-- Operations that agree are equal if they carry the same literal. -/
theorem Operation.eq_of_agrees {next : Operation} (agrees : op.agrees next = true)
    (value : next.opcode = op.opcode → next.value = op.value)
    : next = op := by
  simp only [Operation.agrees, Bool.and_eq_true, beq_iff_eq, mk.injEq] at agrees
  cases op
  cases next
  simp_all

/-- An operation that is numbered carries another literal only if it becomes something else. -/
theorem ValueTable.Tidy.value_visit (tidy : table.Tidy)
    (same : (table.visit op).1.opcode = op.opcode)
    : (table.visit op).1.value = op.value := by
  cases phi : op.isPhi with
  | true => rw [visit_phi op phi]
  | false =>
      cases named : op.dest with
      | none => rw [visit_unnamed op phi named]; rfl
      | some dest =>
          cases pure : op.opcode.isPure with
          | false => rw [visit_impure op pure named]; rfl
          | true =>
              have outcome := (tidy.numbersOf op.args).outcome_numberPure
                (table.rerouted op) dest (table.numbersOf op.args).1
              rw [visit_pure op phi pure named] at same ⊢
              generalize (table.numbersOf op.args).2.numberPure (table.rerouted op) dest
                (table.numbersOf op.args).1 = after at same outcome
              cases outcome with
              | kept => rfl
              | folded literal code => exact (code same.symm).symm
              | copied other => exact absurd same.symm other

/-- The flag tells whether an operation changed, as no literal differs from itself. By induction on
the body.
-/
theorem numberValues_unchanged_iff (tidy : table.Tidy) {body : List Instruction}
    (numbers : ∀ op, .operation op ∈ body → op.WithoutNaN)
    : (numberValues table body).2 = false ↔ (numberValues table body).1 = body := by
  induction body generalizing table with
  | nil => simp [numberValues]
  | cons instruction rest ih =>
      have later := fun op member => numbers op (List.mem_cons_of_mem _ member)
      cases instruction with
      | label name => simp [numberValues, ih ValueTable.tidy_empty later]
      | operation op =>
          have here : (!op.isPhi && !op.agrees (table.visit op).1) = false
              ↔ (table.visit op).1 = op := by
            cases phi : op.isPhi with
            | true => simp [(table.visit_simplifies op).eq_of_isPhi phi]
            | false =>
                simp only [Bool.not_false, Bool.true_and, Bool.not_eq_false']
                constructor
                · exact fun agrees => Operation.eq_of_agrees agrees tidy.value_visit
                · intro same
                  rw [same]
                  exact (numbers op List.mem_cons_self).agrees_self
          simp [numberValues, here, ih (tidy.visit op) later]

end

-----------------------------------------------------------------------------------------
-- Passes on their own
-----------------------------------------------------------------------------------------

variable {f : Function} {passes : List Pass}

/-- No pass makes a literal NaN. -/
theorem Function.WithoutNaN.runPasses (numbers : f.WithoutNaN) (passes : List Pass)
    : (runPasses passes f).1.WithoutNaN := by
  refine runPasses_induction (fun f numbers op member => ?_) (fun f numbers op member => ?_) passes
    numbers
  · have body : ∀ op, .operation op ∈ f.body → op.WithoutNaN :=
      fun op member => numbers op (mem_operations.mpr member)
    exact numberValues_withoutNaN (numericReading.explains_empty fun _ => ()) body op
      (mem_operations.mp member)
  · have before := (removalRound_sublist f.body).subset (mem_operations.mp member)
    exact numbers op (mem_operations.mpr before)

/-- Removal behind removal removes nothing, by induction on the rounds. -/
theorem eliminateDead_eliminateDead (body : List Instruction)
    : eliminateDead (eliminateDead body) = eliminateDead body := by
  fun_induction eliminateDead body with
  | case1 body next shorter ih => exact ih
  | case2 body next same =>
      unfold eliminateDead
      exact if_neg same

/-- Removal only removes, by induction on the rounds. -/
theorem eliminateDead_sublist (body : List Instruction) : (eliminateDead body).Sublist body := by
  fun_induction eliminateDead body with
  | case1 body next shorter ih => exact ih.trans (removalRound_sublist body)
  | case2 body next same => exact .refl body

/-- Value numbering keeps the length, by induction on the body. -/
theorem length_numberValues (table : ValueTable) (body : List Instruction)
    : (numberValues table body).1.length = body.length := by
  induction body generalizing table with
  | nil => rfl
  | cons instruction rest ih => cases instruction <;> simp [numberValues, ih]

theorem Function.with_body_eq_iff {body : List Instruction} : { f with body } = f ↔ body = f.body :=
  ⟨congrArg Function.body, fun same => congrArg (fun body => { f with body }) same⟩

/-- Numbering values a second time gives the same function, also with literals that are NaN. -/
theorem Function.numberValues_numberValues (f : Function)
    : f.numberValues.1.numberValues.1 = f.numberValues.1 :=
  with_body_eq_iff.mpr
    (ThreeAddress.numberValues_numberValues (ValueTable.retraces_empty id) ValueTable.tidy_empty
      f.body)

namespace Pass

/-- The pass finds nothing to do. -/
def Idle (pass : Pass) (f : Function) : Prop :=
  pass.run f = (f, false)

theorem length_run_le (pass : Pass) (f : Function)
    : (pass.run f).1.body.length ≤ f.body.length := by
  cases pass with
  | valueNumbering => exact (length_numberValues .empty f.body).le
  | deadCode => exact (eliminateDead_sublist f.body).length_le

/-- The flag tells whether the pass changed the function. -/
theorem unchanged_iff (numbers : f.WithoutNaN) (pass : Pass)
    : (pass.run f).2 = false ↔ (pass.run f).1 = f := by
  cases pass with
  | valueNumbering =>
      have unchanged := numberValues_unchanged_iff ValueTable.tidy_empty
        fun op member => numbers op (Function.mem_operations.mpr member)
      exact unchanged.trans Function.with_body_eq_iff.symm
  | deadCode =>
      refine Iff.trans ⟨fun kept => ?_, fun same => ?_⟩ Function.with_body_eq_iff.symm
      · exact (eliminateDead_sublist f.body).eq_of_length_le
          (Nat.le_of_not_lt (of_decide_eq_false kept))
      · exact decide_eq_false (congrArg List.length same).not_lt

theorem idle_of_unchanged (numbers : f.WithoutNaN) {pass : Pass} (same : (pass.run f).2 = false)
    : pass.Idle f :=
  Prod.ext ((unchanged_iff numbers pass).mp same) same

theorem idle_of_run_eq (numbers : f.WithoutNaN) {pass : Pass} (same : (pass.run f).1 = f)
    : pass.Idle f :=
  Prod.ext same ((unchanged_iff numbers pass).mpr same)

/-- No pass leaves anything to do for itself. -/
theorem idle_run (numbers : f.WithoutNaN) (pass : Pass) : pass.Idle (pass.run f).1 := by
  have after : (pass.run f).1.WithoutNaN := numbers.runPasses [pass]
  refine idle_of_run_eq after ?_
  cases pass with
  | valueNumbering => exact f.numberValues_numberValues
  | deadCode => exact congrArg (fun body => { f with body }) (eliminateDead_eliminateDead f.body)

/-- Removal that does not make the function shorter finds nothing to do. -/
theorem deadCode_idle (numbers : f.WithoutNaN)
    (kept : f.body.length ≤ (deadCode.run f).1.body.length)
    : deadCode.Idle f :=
  idle_of_unchanged numbers (decide_eq_false (Nat.not_lt_of_le kept))

end Pass

/-- Value numbering is idempotent: a second run finds nothing that it changes, and it says so unless
a literal is NaN, which does not agree with itself.
-/
theorem Function.numberValues_idempotent (f : Function)
    : f.numberValues.1.numberValues.1 = f.numberValues.1
      ∧ (f.WithoutNaN → f.numberValues.1.numberValues = (f.numberValues.1, false)) :=
  ⟨f.numberValues_numberValues, fun numbers => Pass.idle_run numbers .valueNumbering⟩

/-- A sum that is computed three times. Its first home is overwritten before the third time. -/
def recomputedSum : Function where
  name := "f"
  params := [{ name := "a", ty := .int }, { name := "b", ty := .int }]
  body := [
    .operation { opcode := .add, dest := "s", ty := some .int, args := ["a", "b"] },
    .operation { opcode := .add, dest := "t", ty := some .int, args := ["b", "a"] },
    .operation { opcode := .const, dest := "s", ty := some .int, value := some (.int 1) },
    .operation { opcode := .add, dest := "u", ty := some .int, args := ["a", "b"] },
    .operation { opcode := .print, args := ["t", "u"] }]

/-- The second sum becomes a copy of the first one, and a second run leaves it at that. -/
theorem numberValues_idempotent_recomputedSum
    : recomputedSum.WithoutNaN ∧ recomputedSum.numberValues.2 = true
      ∧ recomputedSum.numberValues.1.numberValues = (recomputedSum.numberValues.1, false) := by
  have numbers : recomputedSum.WithoutNaN := by
    unfold Function.WithoutNaN Operation.WithoutNaN
    decide
  exact ⟨numbers, by decide, (Function.numberValues_idempotent recomputedSum).2 numbers⟩

-----------------------------------------------------------------------------------------
-- Rounds of passes
-----------------------------------------------------------------------------------------

/-- The flag is up behind passes if it was before, or if one of them puts it up. -/
theorem foldl_run (passes : List Pass) (f : Function) (changed : Bool)
    : passes.foldl
        (fun state pass => ((pass.run state.1).1, state.2 || (pass.run state.1).2)) (f, changed)
      = ((runPasses passes f).1, changed || (runPasses passes f).2) := by
  induction passes generalizing f changed with
  | nil => simp [runPasses]
  | cons pass rest ih =>
      have whole : runPasses (pass :: rest) f
          = rest.foldl (fun state pass => ((pass.run state.1).1, state.2 || (pass.run state.1).2))
              ((pass.run f).1, false || (pass.run f).2) := rfl
      rw [List.foldl_cons, ih, whole, ih, Bool.false_or, Bool.or_assoc]

theorem runPasses_cons (pass : Pass) (rest : List Pass) (f : Function)
    : runPasses (pass :: rest) f
      = ((runPasses rest (pass.run f).1).1,
          (pass.run f).2 || (runPasses rest (pass.run f).1).2) :=
  foldl_run rest (pass.run f).1 (pass.run f).2

/-- The last pass of a round runs on what the others leave. -/
theorem runPasses_concat (passes : List Pass) (last : Pass) (f : Function)
    : (runPasses (passes ++ [last]) f).1 = (last.run (runPasses passes f).1).1 := by
  induction passes generalizing f with
  | nil => rfl
  | cons pass rest ih => rw [List.cons_append, runPasses_cons, runPasses_cons, ih]

theorem length_runPasses_le (passes : List Pass) (f : Function)
    : (runPasses passes f).1.body.length ≤ f.body.length := by
  induction passes generalizing f with
  | nil => exact Nat.le_refl _
  | cons pass rest ih =>
      rw [runPasses_cons]
      exact (ih _).trans (pass.length_run_le f)

/-- Passes that find nothing to do change nothing. -/
theorem runPasses_of_idle (idle : ∀ pass ∈ passes, pass.Idle f)
    : runPasses passes f = (f, false) := by
  induction passes with
  | nil => rfl
  | cons pass rest ih =>
      obtain ⟨here, others⟩ := List.forall_mem_cons.mp idle
      rw [runPasses_cons, here, ih others, Bool.or_false]

/-- If a round changes nothing, then none of its passes finds something to do. -/
theorem idle_of_runPasses_unchanged (numbers : f.WithoutNaN)
    (same : (runPasses passes f).2 = false)
    : ∀ pass ∈ passes, pass.Idle f := by
  induction passes with
  | nil => simp
  | cons pass rest ih =>
      rw [runPasses_cons, Bool.or_eq_false_iff] at same
      have here := Pass.idle_of_unchanged numbers same.1
      rw [here] at same
      exact List.forall_mem_cons.mpr ⟨here, ih same.2⟩

/-- If value numbering finds nothing to do and a round removes nothing, then none of its passes
finds something to do, by induction on the passes.
-/
theorem idle_of_numbering_idle (numbers : f.WithoutNaN) (numbered : Pass.valueNumbering.Idle f)
    (kept : f.body.length ≤ (runPasses passes f).1.body.length)
    : ∀ pass ∈ passes, pass.Idle f := by
  induction passes with
  | nil => simp
  | cons pass rest ih =>
      rw [runPasses_cons] at kept
      have here : pass.Idle f := by
        cases pass with
        | valueNumbering => exact numbered
        | deadCode => exact Pass.deadCode_idle numbers (kept.trans (length_runPasses_le rest _))
      rw [here] at kept
      exact List.forall_mem_cons.mpr ⟨here, ih kept⟩

/-- A round that numbers values and removes nothing leaves value numbering nothing to do, by
induction on the passes: those in front of the first numbering find nothing to do, and neither do
those behind it.
-/
theorem numbering_idle_runPasses (numbers : f.WithoutNaN)
    (kept : f.body.length ≤ (runPasses passes f).1.body.length)
    (numbering : .valueNumbering ∈ passes)
    : Pass.valueNumbering.Idle (runPasses passes f).1 := by
  induction passes with
  | nil => simp at numbering
  | cons pass rest ih =>
      rw [runPasses_cons] at kept ⊢
      cases pass with
      | valueNumbering =>
          have numbered := Pass.idle_run numbers .valueNumbering
          have idle := idle_of_numbering_idle (numbers.runPasses [.valueNumbering]) numbered
            ((Pass.length_run_le .valueNumbering f).trans kept)
          exact (runPasses_of_idle idle).symm ▸ numbered
      | deadCode =>
          have here := Pass.deadCode_idle numbers (kept.trans (length_runPasses_le rest _))
          rw [here] at kept ⊢
          exact ih kept (by simpa using numbering)

/-- A round behind another round leaves nothing to do if it removes nothing. If value numbering is
the last pass, then the second round finds nothing to do for it, and so for none. If removal is,
then the second round leaves nothing to do for it, and nothing for value numbering.
-/
theorem idle_of_second_round (numbers : f.WithoutNaN)
    (kept : (runPasses passes f).1.body.length
      ≤ (runPasses passes (runPasses passes f).1).1.body.length)
    : ∀ pass ∈ passes, pass.Idle (runPasses passes (runPasses passes f).1).1 := by
  have numbers' := numbers.runPasses passes
  obtain rfl | ⟨others, last, rfl⟩ := passes.eq_nil_or_concat'
  · simp
  cases last with
  | valueNumbering =>
      have numbered : Pass.valueNumbering.Idle (runPasses (others ++ [.valueNumbering]) f).1 := by
        rw [runPasses_concat]
        exact Pass.idle_run (numbers.runPasses others) _
      have idle := idle_of_numbering_idle numbers' numbered kept
      rwa [runPasses_of_idle idle]
  | deadCode =>
      intro pass member
      cases pass with
      | valueNumbering => exact numbering_idle_runPasses numbers' kept member
      | deadCode =>
          rw [runPasses_concat]
          exact Pass.idle_run (numbers'.runPasses others) _

/-- Repetition stops where no pass finds something to do. -/
theorem repeatPasses_of_idle (idle : ∀ pass ∈ passes, pass.Idle f) (limit : Nat)
    : (repeatPasses passes limit f).1 = f := by
  cases limit with
  | zero => rfl
  | succ limit => simp [repeatPasses, runPasses_of_idle idle]

/-- Repeating passes is a round and then repeating them, also if the round changes nothing. -/
theorem repeatPasses_succ (numbers : f.WithoutNaN) (passes : List Pass) (limit : Nat)
    : (repeatPasses passes (limit + 1) f).1
      = (repeatPasses passes limit (runPasses passes f).1).1 := by
  cases changed : (runPasses passes f).2 with
  | true => simp only [repeatPasses, changed, if_true]
  | false =>
      have idle := idle_of_runPasses_unchanged numbers changed
      rw [runPasses_of_idle idle, repeatPasses_of_idle idle, repeatPasses_of_idle idle]

/-- Behind a round, as many rounds as there are instructions are enough, by induction on their
number: each one either removes something, or it leaves nothing to do.
-/
theorem idle_repeatPasses (numbers : f.WithoutNaN) (passes : List Pass) {limit : Nat}
    (enough : (runPasses passes f).1.body.length ≤ limit)
    : ∀ pass ∈ passes, pass.Idle (repeatPasses passes limit (runPasses passes f).1).1 := by
  have numbers' := numbers.runPasses passes
  induction limit generalizing f with
  | zero =>
      have empty := List.eq_nil_of_length_eq_zero (Nat.le_zero.mp enough)
      have numbered : Pass.valueNumbering.Idle (runPasses passes f).1 :=
        Pass.idle_of_run_eq numbers' (Function.with_body_eq_iff.mpr (by rw [empty]; rfl))
      exact idle_of_numbering_idle numbers' numbered (enough.trans (Nat.zero_le _))
  | succ limit ih =>
      rw [repeatPasses_succ numbers']
      by_cases kept : (runPasses passes f).1.body.length
          ≤ (runPasses passes (runPasses passes f).1).1.body.length
      · have idle := idle_of_second_round numbers kept
        rwa [repeatPasses_of_idle idle]
      · exact ih numbers' (by omega) (numbers'.runPasses passes)

/-- A fixed point step comes to rest if no literal is NaN and it may repeat its passes more often
than there are instructions: the passes change nothing in what it leaves.
-/
theorem Pipeline.fixedPoint_comes_to_rest {pipeline : Pipeline} (numbers : f.WithoutNaN)
    (passes : List Pass) (enough : f.body.length + 1 ≤ pipeline.maxIterations)
    : ∃ result changed, pipeline.runStep f (.fixedPoint passes) = .ok (result, changed)
        ∧ runPasses passes result = (result, false) := by
  refine ⟨_, _, rfl, runPasses_of_idle ?_⟩
  obtain ⟨limit, rounds⟩ := Nat.exists_eq_add_of_le' (Nat.le_trans (Nat.le_add_left 1 _) enough)
  rw [rounds] at enough ⊢
  rw [repeatPasses_succ numbers]
  exact idle_repeatPasses numbers passes
    ((length_runPasses_le passes f).trans (Nat.le_of_succ_le_succ enough))

/-- A sum that is printed. Its operands are dead once it has been folded. -/
def printedSum : Function where
  name := "f"
  body := [
    .operation { opcode := .const, dest := "a", ty := some .int, value := some (.int 1) },
    .operation { opcode := .const, dest := "b", ty := some .int, value := some (.int 2) },
    .operation { opcode := .add, dest := "c", ty := some .int, args := ["a", "b"] },
    .operation { opcode := .print, args := ["c"] }]

/-- Removal in front of value numbering comes to rest, although it finds nothing at first. -/
theorem fixedPoint_comes_to_rest_printedSum
    : printedSum.WithoutNaN ∧ printedSum.body.length + 1 ≤ ({} : Pipeline).maxIterations
      ∧ ∃ result changed,
        ({} : Pipeline).runStep printedSum (.fixedPoint [.deadCode, .valueNumbering])
            = .ok (result, changed)
          ∧ runPasses [.deadCode, .valueNumbering] result = (result, false) := by
  have numbers : printedSum.WithoutNaN := by
    unfold Function.WithoutNaN Operation.WithoutNaN
    decide
  have enough : printedSum.body.length + 1 ≤ ({} : Pipeline).maxIterations := by decide
  exact ⟨numbers, enough, Pipeline.fixedPoint_comes_to_rest numbers _ enough⟩

/-- A definition of NaN. -/
def definedNaN : Function where
  name := "f"
  body := [
    .operation {
      opcode := .const
      dest := "a"
      ty := some .float
      value := some (.float ⟨0x7FF8000000000000⟩) }]

/-- NaN does not agree with itself, so value numbering of it never comes to rest. -/
example : runPasses [.valueNumbering] definedNaN = (definedNaN, true) := by decide

end ThreeAddress
