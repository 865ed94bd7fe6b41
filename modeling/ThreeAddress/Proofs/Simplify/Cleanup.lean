import ThreeAddress.Proofs.Simplify.Rewriting
import ThreeAddress.Proofs.Simplify.Tables
import ThreeAddress.Simplify.Pipeline

/-! Cleanups work block by block and keep how blocks end. So a cleaned function is accepted like the
original, as long as anything of it is left.
-/

namespace ThreeAddress

-----------------------------------------------------------------------------------------
-- Value numbering of a block
-----------------------------------------------------------------------------------------

/-- The operations of a block numbered and simplified, from the table in front of them. -/
def numberOperations : ValueTable → List Operation → List Operation
  | _, [] => []
  | table, op :: rest => (table.visit op).1 :: numberOperations (table.visit op).2 rest

/-- Value numbering works block by block, by induction on the body. -/
theorem divide_numberValues (table : ValueTable) (body : List Instruction)
    : divide (numberValues table body).1
      = (numberOperations table (divide body).1,
          (divide body).2.map (·.rewrite (numberOperations .empty))) := by
  induction body generalizing table with
  | nil => rfl
  | cons instruction rest ih =>
      cases instruction with
      | label name =>
          simp only [numberValues, divide, ih, List.map_cons, BasicBlock.rewrite, numberOperations]
      | operation op => simp only [numberValues, divide, ih, numberOperations]

/-- How an operation ends its block, if it does. -/
def Operation.exit? (op : Operation) : Option (Opcode × List String) :=
  if op.isTerminator then some (op.opcode, op.labels) else none

/-- Simplified operations end blocks as they did. -/
theorem Operation.Simplifies.exit?_eq {op next : Operation} (simplifies : op.Simplifies next)
    : next.exit? = op.exit? := by
  cases simplifies with
  | phi => rfl
  | pure _ pure _ pure' =>
      have stays {op : Operation} (pure : op.opcode.isPure = true) : op.exit? = none := by
        simp only [Operation.exit?, Operation.isTerminator_of_isPure pure, Bool.false_eq_true,
          if_false]
      rw [stays pure, stays pure']
  | effect => rfl

/-- A change that keeps for each operation whether and how it ends a block keeps the ends. -/
theorem keepsEnds_of_map_exit? {change : List Operation → List Operation}
    (same : ∀ ops, (change ops).map Operation.exit? = ops.map Operation.exit?)
    : KeepsEnds change := by
  have straight_iff (block : BasicBlock)
      : block.Straight ↔ ∀ exit ∈ (block.body.map Operation.exit?).dropLast, exit = none := by
    rw [← List.map_dropLast, List.forall_mem_map]
    simp [BasicBlock.Straight, Operation.exit?]
  have exit_eq (block : BasicBlock)
      : block.exit? = (block.body.map Operation.exit?).getLast?.join := by
    rw [List.getLast?_map, BasicBlock.exit?, BasicBlock.terminator?]
    cases block.body.getLast? with
    | none => rfl
    | some op => cases ends : op.isTerminator <;> simp [Operation.exit?, Option.filter, ends]
  constructor
  case nil => simpa using same []
  case straight =>
    intro block straight
    rw [straight_iff, BasicBlock.rewrite, same]
    exact (straight_iff block).mp straight
  case exit =>
    intro block _
    rw [exit_eq, exit_eq, BasicBlock.rewrite, same]

/-- What simplified operations have in common with the operations, a numbered block has with the
block, by induction on its operations.
-/
theorem map_numberOperations {α : Type} {read : Operation → α}
    (same : ∀ {op next : Operation}, op.Simplifies next → read next = read op)
    (table : ValueTable) (ops : List Operation)
    : (numberOperations table ops).map read = ops.map read := by
  induction ops generalizing table with
  | nil => rfl
  | cons op rest ih =>
      simp only [numberOperations, List.map_cons, same (table.visit_simplifies op), ih]

/-- Value numbering keeps how blocks end. -/
theorem keepsEnds_numberOperations : KeepsEnds (numberOperations .empty) :=
  keepsEnds_of_map_exit? (map_numberOperations Operation.Simplifies.exit?_eq .empty)

/-- Value numbering rewrites a function. -/
theorem Function.rewrites_numberValues (f : Function)
    : Rewrites (numberOperations .empty) f f.numberValues.1 where
  name := rfl
  params := rfl
  divided := divide_numberValues .empty f.body

/-- What simplified operations have in common with the operations, a numbered function has with the
function.
-/
theorem Function.map_operations_numberValues {α : Type} {read : Operation → α}
    (same : ∀ {op next : Operation}, op.Simplifies next → read next = read op) (f : Function)
    : f.numberValues.1.operations.map read = f.operations.map read := by
  rw [← flatMap_body_pieces, ← flatMap_body_pieces, f.rewrites_numberValues.pieces_eq,
    List.map_flatMap, List.map_flatMap, List.flatMap_map]
  exact congrArg (f.pieces.flatMap ·)
    (funext fun block => map_numberOperations same .empty block.body)

/-- Value numbering keeps definitions with their types. -/
theorem Function.typedDefinitions_numberValues (f : Function)
    : f.numberValues.1.typedDefinitions = f.typedDefinitions := by
  let read (op : Operation) : Option (String × Option Ty) := op.dest.map fun var => (var, op.ty)
  have same {op next : Operation} (simplifies : op.Simplifies next) : read next = read op := by
    simp only [read, simplifies.dest_eq, simplifies.ty_eq]
  have whole := congrArg (List.filterMap id) (f.map_operations_numberValues same)
  rw [List.filterMap_map, List.filterMap_map] at whole
  exact congrArg (f.params.map (fun p => (p.name, some p.ty)) ++ ·) whole

-----------------------------------------------------------------------------------------
-- Removal in a block
-----------------------------------------------------------------------------------------

/-- A round of removals in the operations of a block. The flag tells whether the block has ended. -/
def sweep (used : NameSet) : Bool → List Operation → List Operation
  | _, [] => []
  | ended, op :: rest =>
    let kept := sweep used (ended || op.isTerminator) rest
    if ended || op.isDead used (rest.map .operation) then kept else op :: kept

/-- Whether a variable is overwritten is told from the rest of the block. -/
theorem isOverwritten_divide (var : String) (body : List Instruction)
    : isOverwritten var ((divide body).1.map .operation) = isOverwritten var body := by
  induction body with
  | nil => rfl
  | cons instruction rest ih =>
      cases instruction with
      | label name => rfl
      | operation op => simp only [divide, List.map_cons, isOverwritten, ih]

/-- Removal works block by block, by induction on the body. -/
theorem divide_removeDead (used : NameSet) (ended : Bool) (body : List Instruction)
    : divide (removeDead used ended body)
      = (sweep used ended (divide body).1,
          (divide body).2.map (·.rewrite (sweep used false))) := by
  induction body generalizing ended with
  | nil => rfl
  | cons instruction rest ih =>
      cases instruction with
      | label name =>
          simp only [removeDead, divide, ih, List.map_cons, BasicBlock.rewrite, sweep]
      | operation op =>
          have dead : op.isDead used ((divide rest).1.map .operation) = op.isDead used rest := by
            simp only [Operation.isDead, isOverwritten_divide]
          simp only [removeDead, divide, sweep, dead]
          split <;> simp only [divide, ih]

/-- Removal in the operations of a block is removal in a body of these operations. -/
theorem map_operation_sweep (used : NameSet) (ended : Bool) (ops : List Operation)
    : (sweep used ended ops).map .operation = removeDead used ended (ops.map .operation) := by
  induction ops generalizing ended with
  | nil => rfl
  | cons op rest ih =>
      simp only [sweep, List.map_cons, removeDead]
      split <;> simp only [List.map_cons, ih]

/-- A block is straight exactly when nothing stands behind what ends a block in its operations. -/
theorem BasicBlock.straight_iff {block : BasicBlock}
    : block.Straight ↔ TerminatorsLast (block.body.map .operation) := by
  have apart : TerminatorsLast (block.body.map .operation ++ []) ↔ block.Straight ∧ True :=
    terminatorsLast_append block.body rfl
  rw [List.append_nil, and_true] at apart
  exact apart.symm

/-- Removal keeps how blocks end. -/
theorem keepsEnds_sweep (used : NameSet) : KeepsEnds (sweep used false) where
  nil := rfl
  straight straight := by
    rw [BasicBlock.straight_iff, BasicBlock.rewrite, map_operation_sweep]
    exact (BasicBlock.straight_iff.mp straight).removeDead
  exit {block} straight := by
    have last := BasicBlock.straight_iff.mp straight
    have straight' : (block.rewrite (sweep used false)).Straight := by
      rw [BasicBlock.straight_iff, BasicBlock.rewrite, map_operation_sweep]
      exact last.removeDead
    have kept {op : Operation} (ends : op.isTerminator = true)
        : op ∈ sweep used false block.body ↔ op ∈ block.body := by
      have listed (ops : List Operation) : op ∈ ops ↔ .operation op ∈ ops.map Instruction.operation
          := by simp
      rw [listed, listed block.body, map_operation_sweep]
      exact ⟨(mem_removeDead last).1,
        (mem_removeDead last).2 (Opcode.not_isPure_of_isTerminator ends)⟩
    apply Option.ext
    intro exit
    rw [straight'.exit?_eq_some, straight.exit?_eq_some]
    exact exists_congr fun op => and_congr_left fun ends => kept ends.1

/-- A round of removals rewrites a function. -/
theorem Function.rewrites_afterRound (f : Function)
    : Rewrites (sweep (usedNames f.body) false) f f.afterRound where
  name := rfl
  params := rfl
  divided := divide_removeDead (usedNames f.body) false f.body

-----------------------------------------------------------------------------------------
-- All passes
-----------------------------------------------------------------------------------------

/-- What a round of removals preserves, elimination does, by induction on the rounds. -/
theorem Function.eliminateDead_induction {P : Function → Prop}
    (round : ∀ f, P f → P f.afterRound) {f : Function} (holds : P f)
    : P f.eliminateDead.1 := by
  have rounds (body : List Instruction) (holds : P { f with body })
      : P { f with body := ThreeAddress.eliminateDead body } := by
    fun_induction ThreeAddress.eliminateDead body with
    | case1 body next shorter ih => exact ih (round _ holds)
    | case2 body next same => exact holds
  exact rounds f.body holds

/-- What value numbering and a round of removals preserve, all passes do, by induction on the
passes.
-/
theorem runPasses_induction {P : Function → Prop} (numbering : ∀ f, P f → P f.numberValues.1)
    (round : ∀ f, P f → P f.afterRound) (passes : List Pass) {f : Function} (holds : P f)
    : P (runPasses passes f).1 := by
  rw [runPasses]
  generalize false = changed
  induction passes generalizing f changed with
  | nil => exact holds
  | cons pass rest ih =>
      have after : P (pass.run f).1 := by
        cases pass with
        | valueNumbering => exact numbering f holds
        | deadCode => exact Function.eliminateDead_induction round holds
      exact ih after _

-----------------------------------------------------------------------------------------
-- Accepted functions
-----------------------------------------------------------------------------------------

namespace Function

/-- The function has what no cleanup removes: a label or an operation with effects. -/
def Lasts (f : Function) : Prop :=
  f.labels ≠ [] ∨ ∃ op ∈ f.operations, op.opcode.isPure = false

/-- A function with something that lasts is not empty. -/
theorem Lasts.body_ne_nil {f : Function} (lasts : f.Lasts) : f.body ≠ [] := by
  intro empty
  rcases lasts with labels | ⟨op, member, -⟩
  · exact labels (by rw [Function.labels, empty]; rfl)
  · rw [operations, empty] at member
    exact absurd member List.not_mem_nil

/-- Value numbering leaves what lasts. -/
theorem Lasts.numberValues {f : Function} (lasts : f.Lasts) : f.numberValues.1.Lasts := by
  refine lasts.imp (fun labels => f.rewrites_numberValues.labels_eq ▸ labels) fun effect => ?_
  have codes : f.numberValues.1.operations.map (·.opcode.isPure)
      = f.operations.map (·.opcode.isPure) :=
    f.map_operations_numberValues Operation.Simplifies.isPure_eq
  simpa only [← List.mem_map, codes] using effect

/-- A round of removals leaves what lasts, where nothing stands behind what ends a block. -/
theorem Lasts.afterRound {f : Function} (lasts : f.Lasts) (last : TerminatorsLast f.body)
    : f.afterRound.Lasts := by
  refine lasts.imp (fun labels => f.rewrites_afterRound.labels_eq ▸ labels) ?_
  rintro ⟨op, member, impure⟩
  exact ⟨op, mem_operations.mpr ((mem_removeDead last).2 impure (mem_operations.mp member)), impure⟩

/-- If a function has a control flow graph and its branches go to declared labels, then after any
passes it has one exactly if an instruction is left of it; and there is one left if it has a label
or an operation with effects. By induction on the passes, of which each step rewrites the blocks.
-/
theorem exists_ofFunction?_runPasses_iff {f : Function} {allow : Bool} {g : Cfg}
    (ok : Cfg.ofFunction? f allow = .ok g) (declared : f.BranchesDeclared) (passes : List Pass)
    : ((∃ g', Cfg.ofFunction? (runPasses passes f).1 allow = .ok g')
        ↔ (runPasses passes f).1.body ≠ [])
      ∧ (f.labels ≠ [] ∨ (∃ op ∈ f.operations, op.opcode.isPure = false)
        → (runPasses passes f).1.body ≠ []) := by
  -- a function of which nothing is left stays as it is
  let Accepted (f : Function) : Prop :=
    f.body = [] ∨ (∃ g, Cfg.ofFunction? f allow = .ok g) ∧ f.BranchesDeclared
  have straight {f : Function} (accepted : Accepted f) : TerminatorsLast f.body := by
    rcases accepted with empty | ⟨⟨g, ok⟩, -⟩
    · exact empty ▸ trivial
    · exact (wellFormed_of_ok ok).terminators_last
  have step {f f' : Function} {change : List Operation → List Operation}
      (rewrites : Rewrites change f f') (keeps : KeepsEnds change) (accepted : Accepted f)
      : Accepted f' := by
    by_cases empty : f'.body = []
    · exact .inl empty
    · obtain ⟨⟨g, ok⟩, declared⟩ :=
        accepted.resolve_left fun start => empty (rewrites.body_eq_nil keeps start)
      exact .inr ⟨rewrites.exists_ofFunction?_eq_ok keeps ok declared empty,
        rewrites.branchesDeclared keeps (wellFormed_of_ok ok).terminators_last declared⟩
  have accepted : Accepted (runPasses passes f).1 :=
    runPasses_induction (fun f => step f.rewrites_numberValues keepsEnds_numberOperations)
      (fun f => step f.rewrites_afterRound (keepsEnds_sweep _)) passes (.inr ⟨⟨g, ok⟩, declared⟩)
  refine ⟨⟨fun graph => ?_, fun nonempty => (accepted.resolve_left nonempty).1⟩, fun lasts => ?_⟩
  · obtain ⟨g', ok'⟩ := graph
    exact (wellFormed_of_ok ok').nonempty
  · have both : Accepted (runPasses passes f).1 ∧ (runPasses passes f).1.Lasts :=
      runPasses_induction (P := fun f => Accepted f ∧ f.Lasts)
        (fun f holds =>
          ⟨step f.rewrites_numberValues keepsEnds_numberOperations holds.1, holds.2.numberValues⟩)
        (fun f holds =>
          ⟨step f.rewrites_afterRound (keepsEnds_sweep _) holds.1,
            holds.2.afterRound (straight holds.1)⟩)
        passes ⟨.inr ⟨⟨g, ok⟩, declared⟩, lasts⟩
    exact both.2.body_ne_nil

end Function

/-- A definition that nothing uses, in front of a label. -/
def unusedInFront : Function where
  name := "f"
  body := [
    .operation { opcode := .const, dest := "a", ty := some .int, value := some (.int 1) },
    .label "next",
    .operation { opcode := .ret }]

/-- The function has a label, so it is accepted after passes that remove its added entry block. -/
theorem exists_ofFunction?_runPasses_unusedInFront
    : (Cfg.ofFunction? unusedInFront).isOk = true ∧ unusedInFront.BranchesDeclared
      ∧ ∃ g, Cfg.ofFunction? (runPasses [.valueNumbering, .deadCode] unusedInFront).1 = .ok g := by
  have accepted : (Cfg.ofFunction? unusedInFront).isOk = true := by cbv
  have declared : unusedInFront.BranchesDeclared := by
    unfold Function.BranchesDeclared
    decide
  obtain ⟨g, ok⟩ := exists_eq_ok_of_isOk accepted
  obtain ⟨left, lasts⟩ := Function.exists_ofFunction?_runPasses_iff ok declared
    [.valueNumbering, .deadCode]
  exact ⟨accepted, declared, left.mpr (lasts (.inl (by decide)))⟩

/-- A function that only defines a variable that nothing uses. -/
def unusedOnly : Function where
  name := "f"
  body := [.operation { opcode := .const, dest := "a", ty := some .int, value := some (.int 1) }]

/-- Nothing is left of the function, and an empty function has no control flow graph. -/
theorem ofFunction?_runPasses_unusedOnly
    : (Cfg.ofFunction? unusedOnly).isOk = true
      ∧ (Cfg.ofFunction? (runPasses [.deadCode] unusedOnly).1).isOk = false := by
  constructor <;> cbv

end ThreeAddress
