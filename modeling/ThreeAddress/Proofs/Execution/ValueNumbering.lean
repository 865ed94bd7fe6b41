import ThreeAddress.Proofs.Simplify.ValueTable

/-! Value numbering is exact step by step. From the start of any block, and in any environment, the
numbered function runs in lock step with the original one for as long as that is not stuck: every
variable has the same value after every instruction.
-/

namespace ThreeAddress

-----------------------------------------------------------------------------------------
-- Points of a numbered body
-----------------------------------------------------------------------------------------

/-- What may become of an instruction. -/
inductive Instruction.Simplifies : Instruction → Instruction → Prop where
  | label (name : String) : Simplifies (.label name) (.label name)
  | operation {op next : Operation} (simplifies : op.Simplifies next)
    : Simplifies (.operation op) (.operation next)

/-- The table behind a piece of a body. -/
def ValueTable.after : ValueTable → List Instruction → ValueTable
  | table, [] => table
  | _, .label _ :: rest => after .empty rest
  | table, .operation op :: rest => (table.visit op).2.after rest

/-- Numbering goes on behind a piece of a body with the table there, by induction on the piece. -/
theorem numberValues_append (table : ValueTable) (front rest : List Instruction)
    : (numberValues table (front ++ rest)).1
      = (numberValues table front).1 ++ (numberValues (table.after front) rest).1 := by
  induction front generalizing table with
  | nil => rfl
  | cons instruction front ih =>
      cases instruction with
      | label name => exact congrArg (.label name :: ·) (ih .empty)
      | operation op => exact congrArg (_ :: ·) (ih _)

/-- Numbering simplifies one instruction after another. -/
theorem forall₂_numberValues (table : ValueTable) (body : List Instruction)
    : List.Forall₂ Instruction.Simplifies body (numberValues table body).1 := by
  induction body generalizing table with
  | nil => exact .nil
  | cons instruction body ih =>
      cases instruction with
      | label name => exact .cons (.label name) (ih .empty)
      | operation op => exact .cons (.operation (table.visit_simplifies op)) (ih _)

/-- What is left of the numbered body where some piece of the body is left. -/
theorem drop_numberValues (front rest : List Instruction)
    : (numberValues .empty (front ++ rest)).1.drop ((front ++ rest).length - rest.length)
      = (numberValues (ValueTable.empty.after front) rest).1 := by
  have passed : (front ++ rest).length - rest.length = (numberValues .empty front).1.length := by
    rw [List.length_append, Nat.add_sub_cancel]
    exact (forall₂_numberValues .empty front).length_eq
  rw [passed, numberValues_append, List.drop_left]

/-- The phis at the top of a block stay there. -/
theorem leadingPhis_numberValues (table : ValueTable) (rest : List Instruction)
    : leadingPhis (numberValues table rest).1 = leadingPhis rest := by
  induction rest generalizing table with
  | nil => rfl
  | cons instruction rest ih =>
      cases instruction with
      | label name => rfl
      | operation op =>
          have simplifies := table.visit_simplifies op
          simp only [numberValues, leadingPhis, simplifies.isPhi_eq, ih]
          split
          · next phi => rw [simplifies.eq_of_isPhi phi]
          · rfl

/-- What follows the phis of a numbered block is numbered with the table behind them. -/
theorem afterPhis_numberValues (table : ValueTable) (rest : List Instruction)
    : afterPhis (numberValues table rest).1
      = (numberValues (table.after ((leadingPhis rest).map .operation)) (afterPhis rest)).1 := by
  induction rest generalizing table with
  | nil => rfl
  | cons instruction rest ih =>
      cases instruction with
      | label name => rfl
      | operation op =>
          simp only [numberValues, leadingPhis, afterPhis, (table.visit_simplifies op).isPhi_eq]
          split
          · exact ih _
          · rfl

/-- Behind a label numbering starts afresh. -/
theorem afterLabel?_numberValues (table : ValueTable) (label : String) (body : List Instruction)
    : afterLabel? label (numberValues table body).1
      = (afterLabel? label body).map fun rest => (numberValues .empty rest).1 := by
  induction body generalizing table with
  | nil => rfl
  | cons instruction body ih =>
      cases instruction with
      | label name =>
          simp only [numberValues, afterLabel?]
          split
          · rfl
          · exact ih .empty
      | operation op => exact ih _

/-- Behind two pieces of a body is the table that the second leaves of the one behind the first. -/
theorem ValueTable.after_append (table : ValueTable) (front rest : List Instruction)
    : table.after (front ++ rest) = (table.after front).after rest := by
  induction front generalizing table with
  | nil => rfl
  | cons instruction front ih =>
      cases instruction with
      | label name => exact ih .empty
      | operation op => exact ih _

-----------------------------------------------------------------------------------------
-- What operations produce
-----------------------------------------------------------------------------------------

section Produced

variable {V : Type}

/-- The phis of a block that is entered, each with its value. -/
def enteredPhis (source : Option String) (rest : List Instruction) (env : Env V)
    : List (Operation × V) :=
  (leadingPhis rest).filterMap fun phi => (env.phiValue? source phi).map (phi, ·)

/-- The phis of a block that control goes to, each with its value. -/
def phisOfTarget (body : List Instruction) (block : String) (env : Env V)
    : Flow → List (Operation × V)
  | .goto label => (afterLabel? label body).elim [] fun rest => enteredPhis (some block) rest env
  | _ => []

/-- The operations that the step from a state performs, each with the value it produces. Next to the
operation the state is in front of, these are the phis of a block that is entered.
-/
def Interpretation.produced (I : Interpretation V) (body : List Instruction) (state : State V)
    : List (Operation × V) :=
  match state.rest with
  | [] => []
  | .label _ :: rest => enteredPhis (some state.block) rest state.env
  | .operation op :: _ =>
    (I.perform op (op.args.map state.env) state.trace).elim [] fun (value, _, flow) =>
      (op, value) :: phisOfTarget body state.block (state.env.assign op.dest value) flow

end Produced

section Lockstep

variable {F : Type} {floats : Floats F} {effects : Interpretation (Value F)}
  {body : List Instruction}

/-- What the step from a state produces is as declared: operations declared integers or booleans
produce integers or booleans.
-/
def State.StepFits (I : Interpretation (Value F)) (body : List Instruction)
    (state : State (Value F))
    : Prop :=
  ∀ produced ∈ I.produced body state, produced.2.Fits produced.1.ty

/-- The same point of execution in another body with as many instructions. -/
def State.carry (state : State (Value F)) (body body' : List Instruction) : State (Value F) :=
  { state with rest := body'.drop (body.length - state.rest.length) }

/-- The same point of execution in another body with as many instructions. -/
def Execution.carry (body body' : List Instruction)
    : Execution (Value F) → Execution (Value F)
  | running state => running (state.carry body body')
  | finished trace => finished trace
  | stuck trace => stuck trace

/-- In front of an operation, the table there is right about the environment. -/
def State.Numbered (floats : Floats F) (body : List Instruction) (state : State (Value F)) : Prop :=
  ∃ front, body = front ++ state.rest
    ∧ (¬ StartsBlock state.rest → (ValueTable.empty.after front).Explains floats state.env)

/-- A phi that is not at the top of its block is stuck. -/
theorem isPhi_eq_false_of_perform {V : Type} {I : Interpretation V} {op : Operation}
    {values : List V} {trace : Trace V} {outcome : V × Trace V × Flow}
    (performed : I.perform op values trace = some outcome)
    : op.isPhi = false := by
  cases phi : op.isPhi with
  | false => rfl
  | true =>
      have code : op.opcode = .phi := beq_iff_eq.mp phi
      simp [Interpretation.perform, code] at performed

/-- The table stays right when phis get their values, by induction on the phis. -/
theorem ValueTable.Explains.phis {table : ValueTable} {env : Env (Value F)}
    (explains : table.Explains floats env) {source : Option String} {old : Env (Value F)}
    {phis : List Operation} {values : List (Value F)} (all : ∀ op ∈ phis, op.isPhi = true)
    (selected : phis.mapM (old.phiValue? source) = some values)
    (fit : ∀ phi ∈ phis, ∀ value, old.phiValue? source phi = some value → value.Fits phi.ty)
    : (table.after (phis.map .operation)).Explains floats
        (env.assignAll (phis.map (·.dest)) values) := by
  induction phis generalizing table env values with
  | nil => exact explains
  | cons phi phis ih =>
      rw [List.mapM_cons] at selected
      obtain ⟨value, first, others⟩ := Option.bind_eq_some_iff.mp selected
      obtain ⟨tail, rest, same⟩ := Option.bind_eq_some_iff.mp others
      obtain rfl := Option.some.inj same
      exact ih (explains.visit_phi (all phi (by simp)) (fit phi (by simp) value first))
        (fun op member => all op (by simp [member])) rest
        (fun op member => fit op (by simp [member]))

/-- What the state carried to the numbered body has yet to do is numbered with the table there. -/
theorem State.rest_carry (state : State (Value F)) {front : List Instruction}
    (split : body = front ++ state.rest)
    : (state.carry body (numberValues .empty body).1).rest
      = (numberValues (ValueTable.empty.after front) state.rest).1 := by
  subst split
  exact drop_numberValues front state.rest

/-- An execution of the numbered body keeps up with one of the body: it is at the same point with
the same environment, and the table there is right.
-/
structure KeepsUp (floats : Floats F) (body : List Instruction)
    (execution execution' : Execution (Value F))
    : Prop where
  carried : execution' = execution.carry body (numberValues .empty body).1
  numbered : ∀ state, execution = .running state → state.Numbered floats body

/-- An execution that is over keeps up with itself. -/
theorem keepsUp_finished (trace : Trace (Value F))
    : KeepsUp floats body (.finished trace) (.finished trace) :=
  ⟨rfl, nofun⟩

/-- An execution that is stuck keeps up with itself. -/
theorem keepsUp_stuck (trace : Trace (Value F))
    : KeepsUp floats body (.stuck trace) (.stuck trace) :=
  ⟨rfl, nofun⟩

/-- Executions that go on keep up when what is left is numbered with the table there. -/
theorem keepsUp_running {front rest : List Instruction} (split : body = front ++ rest)
    {env : Env (Value F)} (explains : (ValueTable.empty.after front).Explains floats env)
    (block : String) (trace : Trace (Value F))
    : KeepsUp floats body (.running { block, rest, env, trace })
        (.running {
          block, env, trace
          rest := (numberValues (ValueTable.empty.after front) rest).1
        }) where
  carried := by
    rw [← State.rest_carry { block, rest, env, trace } split]
    rfl
  numbered state running := by
    cases running
    exact ⟨front, split, fun _ => explains⟩

/-- A block of the numbered body is entered as that of the original body. -/
theorem enterBlock_numberValues {front rest : List Instruction} {name : String}
    (split : body = front ++ .label name :: rest) {source : Option String} (label : String)
    {env : Env (Value F)} (trace : Trace (Value F))
    (fit : ∀ produced ∈ enteredPhis source rest env, produced.2.Fits produced.1.ty)
    : KeepsUp floats body (enterBlock source label rest env trace)
        (enterBlock source label (numberValues .empty rest).1 env trace) := by
  have whole : body
      = (front ++ .label name :: (leadingPhis rest).map .operation) ++ afterPhis rest := by
    rw [List.append_assoc, List.cons_append, leadingPhis_append_afterPhis, split]
  have behind : ValueTable.empty.after (front ++ .label name :: (leadingPhis rest).map .operation)
      = ValueTable.empty.after ((leadingPhis rest).map .operation) :=
    ValueTable.after_append _ _ _
  unfold enterBlock
  simp only [leadingPhis_numberValues, afterPhis_numberValues, ← behind]
  cases selected : (leadingPhis rest).mapM (env.phiValue? source) with
  | none => exact keepsUp_stuck trace
  | some values =>
      refine keepsUp_running whole ?_ label trace
      rw [behind]
      refine (ValueTable.explains_empty floats env).phis
        (fun op member => (mem_of_mem_leadingPhis member).2) selected ?_
      intro phi member value found
      have entered : (phi, value) ∈ enteredPhis source rest env :=
        List.mem_filterMap.mpr ⟨phi, member, by rw [found]; rfl⟩
      exact fit (phi, value) entered

/-- An operation of the numbered body is executed as that of the original body. -/
theorem execute_numberValues (symmetric : floats.Symmetric) {front rest : List Instruction}
    {op : Operation} {state : State (Value F)} (next : state.rest = .operation op :: rest)
    (split : body = front ++ .operation op :: rest)
    (explains : (ValueTable.empty.after front).Explains floats state.env)
    (fit : state.StepFits (floats.interpretation effects) body)
    (unstuck : ((floats.interpretation effects).execute body state op rest).status ≠ .stuck)
    : KeepsUp floats body ((floats.interpretation effects).execute body state op rest)
        ((floats.interpretation effects).execute (numberValues .empty body).1
          (state.carry body (numberValues .empty body).1)
          ((ValueTable.empty.after front).visit op).1
          (numberValues ((ValueTable.empty.after front).visit op).2 rest).1) := by
  obtain ⟨block, instructions, env, trace⟩ := state
  obtain rfl : instructions = .operation op :: rest := next
  unfold Interpretation.execute at unstuck ⊢
  cases performed : (floats.interpretation effects).perform op (op.args.map env) trace with
  | none => simp [performed, Execution.status] at unstuck
  | some outcome =>
      obtain ⟨value, shown, flow⟩ := outcome
      have fits
          : ∀ produced ∈ (op, value) :: phisOfTarget body block (env.assign op.dest value) flow,
              produced.2.Fits produced.1.ty := by
        simpa only [State.StepFits, Interpretation.produced, performed, Option.elim_some] using fit
      obtain ⟨right, same⟩ := explains.visit symmetric (isPhi_eq_false_of_perform performed)
        (fits (op, value) List.mem_cons_self) performed
      have dest := ((ValueTable.empty.after front).visit_simplifies op).dest_eq
      simp only [State.carry, same, dest]
      cases flow with
      | leave => exact keepsUp_finished shown
      | next =>
          have whole : body = (front ++ [.operation op]) ++ rest := by
            rw [split, List.append_assoc, List.singleton_append]
          have behind : ValueTable.empty.after (front ++ [.operation op])
              = ((ValueTable.empty.after front).visit op).2 :=
            ValueTable.after_append _ _ _
          rw [← behind] at right ⊢
          exact keepsUp_running whole right block shown
      | goto label =>
          dsimp only
          rw [afterLabel?_numberValues]
          cases found : afterLabel? label body with
          | none => exact keepsUp_stuck shown
          | some target =>
              obtain ⟨before, whole⟩ := suffix_of_afterLabel? found
              refine enterBlock_numberValues whole.symm label shown ?_
              intro produced entered
              refine fits produced (List.mem_cons_of_mem _ ?_)
              simpa only [phisOfTarget, found, Option.elim_some] using entered

/-- A step of the numbered body is that of the original body, if this is not stuck. -/
theorem step_numberValues (symmetric : floats.Symmetric) {state : State (Value F)}
    (numbered : state.Numbered floats body)
    (fit : state.StepFits (floats.interpretation effects) body)
    (unstuck : ((floats.interpretation effects).step body state).status ≠ .stuck)
    : KeepsUp floats body ((floats.interpretation effects).step body state)
        ((floats.interpretation effects).step (numberValues .empty body).1
          (state.carry body (numberValues .empty body).1)) := by
  obtain ⟨front, split, explains⟩ := numbered
  have carried := state.rest_carry split
  unfold Interpretation.step
  match next : state.rest with
  | [] =>
      rw [carried, next]
      exact keepsUp_finished state.trace
  | .label name :: rest =>
      have fits : ∀ produced ∈ enteredPhis (some state.block) rest state.env,
          produced.2.Fits produced.1.ty := by
        simpa only [State.StepFits, Interpretation.produced, next] using fit
      rw [carried, next]
      exact enterBlock_numberValues (next ▸ split) name state.trace fits
  | .operation op :: rest =>
      rw [carried, next]
      simp only [Interpretation.step, next] at unstuck
      have inside : ¬ StartsBlock state.rest := by
        simp [next, StartsBlock, Instruction.operation?]
      exact execute_numberValues symmetric next (next ▸ split) (explains inside) fit unstuck

/-- In front of an operation with effects, the numbered body has one that reads the same values. -/
theorem State.Numbered.effect {state : State (Value F)} (numbered : state.Numbered floats body)
    {op : Operation} {rest : List Instruction} (at_ : state.rest = .operation op :: rest)
    (impure : op.opcode.isPure = false)
    : ∃ args rest',
        (state.carry body (numberValues .empty body).1).rest = .operation { op with args } :: rest'
          ∧ args.map state.env = op.args.map state.env := by
  obtain ⟨front, split, explains⟩ := numbered
  have inside : ¬ StartsBlock state.rest := by simp [at_, StartsBlock, Instruction.operation?]
  obtain ⟨args, visited, same⟩ := (explains inside).visit_effect impure
  refine ⟨args, (numberValues ((ValueTable.empty.after front).visit op).2 rest).1, ?_, same⟩
  rw [state.rest_carry split, at_, ← visited]
  rfl

-----------------------------------------------------------------------------------------
-- Runs
-----------------------------------------------------------------------------------------

/-- What the next step produces. -/
def Execution.produced (I : Interpretation (Value F)) (body : List Instruction)
    : Execution (Value F) → List (Operation × Value F)
  | running state => I.produced body state
  | _ => []

/-- In the first steps from a state, operations declared integers or booleans produce integers or
booleans.
-/
def Interpretation.RunFits (I : Interpretation (Value F)) (body : List Instruction)
    (state : State (Value F)) (n : Nat)
    : Prop :=
  ∀ k < n, ∀ produced ∈ ((I.advance body)^[k] (.running state)).produced I body,
    produced.2.Fits produced.1.ty

/-- A block starts where the state is: at the top of the body, at a label or at the end. -/
def State.AtBlock (body : List Instruction) (state : State (Value F)) : Prop :=
  state.rest <:+ body ∧ (state.rest = body ∨ StartsBlock state.rest)

/-- After some steps from a state and from the same state in another body, the executions are at the
same point with the same environment, and have shown the same. If an operation with effects comes
next, both have it, with arguments of the same values.
-/
structure InLockstep (I : Interpretation (Value F)) (body body' : List Instruction)
    (state : State (Value F)) (n : Nat)
    : Prop where
  point
    : (I.advance body')^[n] (.running (state.carry body body'))
      = ((I.advance body)^[n] (.running state)).carry body body'
  effect
    : ∀ reached op rest,
        (I.advance body)^[n] (.running state) = .running reached →
        reached.rest = .operation op :: rest → op.opcode.isPure = false →
        ∃ args rest', (reached.carry body body').rest = .operation { op with args } :: rest'
          ∧ args.map reached.env = op.args.map reached.env

/-- Where a block starts nothing is numbered yet. -/
theorem State.AtBlock.numbered {state : State (Value F)} (atBlock : state.AtBlock body)
    : state.Numbered floats body := by
  obtain ⟨⟨front, split⟩, starts⟩ := atBlock
  refine ⟨front, split.symm, fun inside => ?_⟩
  rcases starts with whole | starts
  · have none : front = [] := by simpa [whole] using split
    rw [none]
    exact ValueTable.explains_empty floats state.env
  · exact absurd starts inside

/-- The numbered body keeps up for as long as the original one is not stuck, by induction on the
steps.
-/
theorem advance_numberValues (symmetric : floats.Symmetric) {state : State (Value F)}
    (numbered : state.Numbered floats body) (n : Nat)
    (unstuck
      : (((floats.interpretation effects).advance body)^[n] (.running state)).status ≠ .stuck)
    (fit : (floats.interpretation effects).RunFits body state n)
    : KeepsUp floats body (((floats.interpretation effects).advance body)^[n] (.running state))
        (((floats.interpretation effects).advance (numberValues .empty body).1)^[n]
          (.running (state.carry body (numberValues .empty body).1))) := by
  induction n with
  | zero =>
      refine ⟨rfl, fun reached same => ?_⟩
      cases same
      exact numbered
  | succ n ih =>
      have now := fit n (Nat.lt_succ_self n)
      have before : (floats.interpretation effects).RunFits body state n := fun k less =>
        fit k (Nat.lt_succ_of_lt less)
      simp only [Function.iterate_succ_apply'] at unstuck ⊢
      cases point : ((floats.interpretation effects).advance body)^[n] (.running state) with
      | stuck trace => simp [point, Interpretation.advance, Execution.status] at unstuck
      | finished trace =>
          rw [point] at ih
          obtain ⟨same, -⟩ := ih (by simp [Execution.status]) before
          rw [same]
          exact keepsUp_finished trace
      | running reached =>
          rw [point] at ih unstuck now
          obtain ⟨same, right⟩ := ih (by simp [Execution.status]) before
          rw [same]
          exact step_numberValues symmetric (right reached rfl) now unstuck

end Lockstep

/-- Value numbering is exact step by step. It keeps labels, phis, destinations and declared types.
From any state where a block starts, in any environment, the numbered function runs in lock step
with the original one for as long as this is not stuck and operations declared integers or
booleans produce integers or booleans. Floating point operations are arbitrary, except that the
order of operands does not matter where operands are sorted.
-/
theorem Function.numberValues_lockstep (f : Function)
    : List.Forall₂ Instruction.Simplifies f.body f.numberValues.1.body
      ∧ ∀ {F : Type} (floats : Floats F) (effects : Interpretation (Value F))
          (state : State (Value F)) (n : Nat),
          floats.Symmetric → state.AtBlock f.body →
          (((floats.interpretation effects).advance f.body)^[n] (.running state)).status ≠ .stuck →
          (floats.interpretation effects).RunFits f.body state n →
          InLockstep (floats.interpretation effects) f.body f.numberValues.1.body state n := by
  refine ⟨forall₂_numberValues .empty f.body, ?_⟩
  intro F floats effects state n symmetric atBlock unstuck fit
  obtain ⟨point, located⟩ := advance_numberValues symmetric atBlock.numbered n unstuck fit
  refine ⟨point, ?_⟩
  intro reached op rest running next impure
  exact (located reached running).effect next impure

/-- Branches go by a boolean, and a call returns how much has been shown. -/
def Interpretation.onBooleans (F : Type) : Interpretation (Value F) where
  undef := .bool false
  compute _ _ _ _ := some (.bool false)
  decide
    | [.bool taken] => some taken
    | _ => none
  answer trace := .int (Int64.ofNat trace.length)

/-- Floating point numbers that every operation is stuck on. -/
def Floats.inert : Floats Double where
  ofDouble := id
  operate _ _ _ := none

/-- A loop that computes a sum in both orders, compares the sums and prints what it finds. -/
def redundantLoop : Function where
  name := "redundant"
  params := []
  body := [
    .label "start",
    .operation { opcode := .const, dest := "one", ty := some .int, value := some (.int 1) },
    .operation { opcode := .id, dest := "x", ty := some .int, args := ["one"] },
    .operation { opcode := .const, dest := "limit", ty := some .int, value := some (.int 3) },
    .label "loop",
    .operation
      { opcode := .phi, dest := "i", ty := some .int, args := ["x", "j"],
        labels := ["start", "loop"] },
    .operation { opcode := .add, dest := "j", ty := some .int, args := ["i", "one"] },
    .operation { opcode := .add, dest := "i", ty := some .int, args := ["one", "i"] },
    .operation { opcode := .eq, dest := "same", ty := some .bool, args := ["i", "j"] },
    .operation { opcode := .lt, dest := "more", ty := some .bool, args := ["i", "limit"] },
    .operation { opcode := .print, args := ["i", "same"] },
    .operation { opcode := .br, args := ["more"], labels := ["done", "loop"] },
    .label "done",
    .operation { opcode := .ret, args := ["i"] }]

/-- In front of the loop, where nothing has a value yet. -/
def redundantLoopStart : State (Value Double) where
  block := ""
  rest := redundantLoop.body
  env _ := .bool false
  trace := []

/-- The loop runs twice and returns, and the numbered one is in lock step. -/
theorem numberValues_lockstep_redundantLoop
    : Floats.inert.Symmetric
      ∧ redundantLoopStart.AtBlock redundantLoop.body
      ∧ (((Floats.inert.interpretation (.onBooleans Double)).advance redundantLoop.body)^[18]
          (.running redundantLoopStart)).status = .finished
      ∧ (Floats.inert.interpretation (.onBooleans Double)).RunFits redundantLoop.body
          redundantLoopStart 18
      ∧ InLockstep (Floats.inert.interpretation (.onBooleans Double)) redundantLoop.body
          redundantLoop.numberValues.1.body redundantLoopStart 18 := by
  have symmetric : Floats.inert.Symmetric := fun _ _ _ _ => rfl
  have atBlock : redundantLoopStart.AtBlock redundantLoop.body := ⟨List.suffix_rfl, .inl rfl⟩
  have finished : (((Floats.inert.interpretation (.onBooleans Double)).advance
      redundantLoop.body)^[18] (.running redundantLoopStart)).status = .finished := by decide
  have fit : (Floats.inert.interpretation (.onBooleans Double)).RunFits redundantLoop.body
      redundantLoopStart 18 := by
    unfold Interpretation.RunFits
    decide
  exact ⟨symmetric, atBlock, finished, fit,
    redundantLoop.numberValues_lockstep.2 Floats.inert _ redundantLoopStart 18 symmetric atBlock
      (by rw [finished]; decide) fit⟩

/-- The value of a variable while an execution is under way. -/
def Execution.value? {V : Type} (var : String) : Execution V → Option V
  | running state => some (state.env var)
  | _ => none

/-- Floating point operations that all give their first operand, so that the order matters. -/
def Floats.first : Floats Bool where
  ofDouble _ := false
  operate _ x _ := some x

/-- Floating point sums in both orders. -/
def floatSums : Function where
  name := "sums"
  params := [{ name := "x", ty := .float }, { name := "y", ty := .float }]
  body := [
    .operation { opcode := .add, dest := "a", ty := some .float, args := ["x", "y"] },
    .operation { opcode := .add, dest := "b", ty := some .float, args := ["y", "x"] },
    .operation { opcode := .print, args := ["b"] }]

/-- In front of the sums, with different operands. -/
def floatSumsStart : State (Value Bool) where
  block := ""
  rest := floatSums.body
  env var := .other (var == "x")
  trace := []

/-- Where the order of operands matters, the numbered function may differ from the original one: the
second sum becomes a copy of the first.
-/
theorem numberValues_reordersOperands
    : floatSumsStart.AtBlock floatSums.body
      ∧ (((Floats.first.interpretation (.onBooleans Bool)).advance floatSums.body)^[2]
          (.running floatSumsStart)).status = .running
      ∧ (Floats.first.interpretation (.onBooleans Bool)).RunFits floatSums.body floatSumsStart 2
      ∧ ¬ InLockstep (Floats.first.interpretation (.onBooleans Bool)) floatSums.body
          floatSums.numberValues.1.body floatSumsStart 2 := by
  refine ⟨⟨List.suffix_rfl, .inl rfl⟩, by decide, ?_, fun lockstep => ?_⟩
  · unfold Interpretation.RunFits
    decide
  · have same := congrArg (Execution.value? "b") lockstep.point
    exact absurd same (by decide)

end ThreeAddress
