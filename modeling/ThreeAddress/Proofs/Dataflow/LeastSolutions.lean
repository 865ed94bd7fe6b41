import Mathlib.Data.Bool.Basic
import ThreeAddress.Proofs.ControlFlow.Blocks
import ThreeAddress.Proofs.Dataflow.Solving

/-! What the solver returns solves the problem: both facts of every block are what the equations
give. If facts are ordered and merging and transferring respect the order, it is the least solution.
-/

namespace ThreeAddress

namespace Analysis

variable {g : FlowGraph} {D : Type} {a : Analysis g D}

-----------------------------------------------------------------------------------------
-- Solutions
-----------------------------------------------------------------------------------------

/-- Facts that satisfy the equations of a problem at all blocks, reachable or not. -/
def Solves (a : Analysis g D) (facts : Facts g D) : Prop :=
  ∀ b, a.Settled facts b

/-- Another round changes nothing exactly when the facts are a solution. -/
theorem isFixedPoint_iff [DecidableEq D] {facts : Facts g D}
    : a.isFixedPoint facts = true ↔ a.Solves facts := by
  simp only [isFixedPoint, List.all_eq_true, Bool.and_eq_true, beq_iff_eq]
  constructor
  · intro stable b
    obtain ⟨received, passedOn⟩ := stable b (g.mem_blocks b)
    exact ⟨received, passedOn⟩
  · intro solves b _
    exact ⟨(solves b).received_eq, (solves b).passedOn_eq⟩

-----------------------------------------------------------------------------------------
-- Monotone problems
-----------------------------------------------------------------------------------------

section Order

variable [PartialOrder D]

/-- The bottom fact is least, merging respects the order in each of its inputs, and so does every
block.
-/
structure Monotone (a : Analysis g D) : Prop where
  bottom_le : ∀ fact, a.bottom ≤ fact
  merge
    : ∀ (before after : List D) {less more : D},
        less ≤ more → a.merge (before ++ less :: after) ≤ a.merge (before ++ more :: after)
  transfer : ∀ (b : g.Block) {less more : D}, less ≤ more → a.transfer b less ≤ a.transfer b more

/-- Merging respects the order in all inputs at once, by replacing one after the other. -/
theorem Monotone.merge_le (monotone : a.Monotone) {less more : List D}
    (below : List.Forall₂ (· ≤ ·) less more)
    : a.merge less ≤ a.merge more := by
  -- the inputs in front have been replaced
  have general (before : List D) : a.merge (before ++ less) ≤ a.merge (before ++ more) := by
    induction below generalizing before with
    | nil => exact le_rfl
    | @cons first first' rest rest' head _ ih =>
        have next := ih (before ++ [first'])
        simp only [List.append_assoc, List.singleton_append] at next
        exact le_trans (monotone.merge before rest head) next
  exact general []

/-- A block receives less where its sources pass on less. -/
theorem Monotone.merged_le (monotone : a.Monotone) {facts facts' : Facts g D}
    (below : ∀ b, a.passedOn facts b ≤ a.passedOn facts' b) (b : g.Block)
    : a.merged facts b ≤ a.merged facts' b := by
  have sources : List.Forall₂ (· ≤ ·) ((a.sources b).map (a.passedOn facts))
      ((a.sources b).map (a.passedOn facts')) := by
    rw [List.forall₂_map_left_iff, List.forall₂_map_right_iff, List.forall₂_same]
    exact fun c _ => below c
  have boundary (facts : List D) : List.Forall₂ (· ≤ ·) facts facts :=
    List.forall₂_same.mpr fun _ _ => le_rfl
  exact monotone.merge_le (List.rel_append sources (boundary _))

/-- Both facts of a block are what it receives and passes on. -/
theorem facts_le_iff {facts facts' : Facts g D} {b : g.Block}
    : facts.top.get b ≤ facts'.top.get b ∧ facts.bottom.get b ≤ facts'.bottom.get b
      ↔ a.received facts b ≤ a.received facts' b ∧ a.passedOn facts b ≤ a.passedOn facts' b := by
  cases flow : a.direction with
  | forward => simp only [received, passedOn, flow]
  | backward => simp only [received, passedOn, flow, and_comm]

end Order

end Analysis

-----------------------------------------------------------------------------------------
-- Solutions over the graph of a function
-----------------------------------------------------------------------------------------

/-- Whatever a problem is like, another round over what the solver returns changes nothing at any
block.
-/
theorem Cfg.isFixedPoint_of_solve {g : Cfg} {D : Type} [DecidableEq D]
    {a : Analysis g.toFlowGraph D} {visits : Nat} {solution : Solution g.toFlowGraph D}
    (solved : g.solve a visits = .ok solution)
    : a.isFixedPoint solution.toFacts = true :=
  Analysis.isFixedPoint_iff.mpr (settled_of_solve solved)

/-- A way to the last block, and a loop that leads there as well but that nothing leads to. -/
def loopOnIsland : Function where
  name := "wait"
  params := [{ name := "ready", ty := .bool }]
  body := [
    .label "start",
    .operation { opcode := .jmp, labels := ["done"] },
    .label "island",
    .operation { opcode := .br, args := ["ready"], labels := ["island", "done"] },
    .label "done",
    .operation { opcode := .ret }]

/-- Subtracts all other inputs from the first one. Blocks raise what they receive to three. -/
def differences (g : FlowGraph) : Analysis g Nat where
  direction := .forward
  bottom := 0
  boundary := 5
  merge inputs := inputs.headD 0 - inputs.tail.sum
  transfer _ fact := max fact 3

/-- Differences depend on the order of the inputs and respect no order of facts. Still the numbers
are stable at the end, also in the loop, which is not reachable.
-/
theorem isFixedPoint_differences_loopOnIsland
    : ∃ (g : Cfg) (solution : Solution g.toFlowGraph Nat),
      Cfg.ofFunction? loopOnIsland true = .ok g
        ∧ g.solve (differences g.toFlowGraph) = .ok solution
        ∧ (differences g.toFlowGraph).isFixedPoint solution.toFacts = true := by
  have solvable : (Cfg.ofFunction? loopOnIsland true).toOption.any (fun g =>
      (g.solve (differences g.toFlowGraph)).toOption.any fun _ => true) = true := by cbv
  obtain ⟨g, graph, solvable⟩ := exists_eq_ok_of_any solvable
  obtain ⟨solution, solved, -⟩ := exists_eq_ok_of_any solvable
  exact ⟨g, solution, graph, solved, Cfg.isFixedPoint_of_solve solved⟩

/-- What the solver returns for a monotone problem is the least solution: both facts of every block
are below those of any other solution, by induction on the visits, which never lead above it.
-/
theorem Cfg.solve_least {g : Cfg} {D : Type} [PartialOrder D] [DecidableEq D]
    {a : Analysis g.toFlowGraph D} (monotone : a.Monotone) {visits : Nat}
    {solution : Solution g.toFlowGraph D} (solved : g.solve a visits = .ok solution)
    : a.Solves solution.toFacts
      ∧ ∀ facts, a.Solves facts → ∀ b,
          solution.top.get b ≤ facts.top.get b ∧ solution.bottom.get b ≤ facts.bottom.get b := by
  refine ⟨settled_of_solve solved, fun facts solves => ?_⟩
  have below := solve_induction (fun b fact => fact ≤ a.received facts b)
    (fun b fact => fact ≤ a.passedOn facts b) ?bottom ?merge ?transfer solved
  · exact fun b => Analysis.facts_le_iff.mpr (below b)
  case bottom => exact fun b => ⟨monotone.bottom_le _, monotone.bottom_le _⟩
  case merge =>
    intro other below b
    rw [(solves b).received_eq]
    exact monotone.merged_le below b
  case transfer =>
    intro b fact below
    rw [(solves b).passedOn_eq, ← (solves b).received_eq]
    exact monotone.transfer b below

/-- Whether something comes to a block from the entry. -/
def comesFromEntry (g : FlowGraph) : Analysis g Bool where
  direction := .forward
  bottom := false
  boundary := true
  merge inputs := inputs.any id
  transfer _ fact := fact

/-- Something might come to the unreachable loop from the loop itself, but in the least solution
nothing does.
-/
theorem solve_least_comesFromEntry_loopOnIsland
    : ∃ (g : Cfg) (solution : Solution g.toFlowGraph Bool),
      Cfg.ofFunction? loopOnIsland true = .ok g
        ∧ (comesFromEntry g.toFlowGraph).Monotone
        ∧ g.solve (comesFromEntry g.toFlowGraph) = .ok solution
        ∧ solution.top.toList = [true, false, true]
        ∧ ∀ facts, (comesFromEntry g.toFlowGraph).Solves facts → ∀ b,
            solution.top.get b ≤ facts.top.get b ∧ solution.bottom.get b ≤ facts.bottom.get b := by
  have solvable : (Cfg.ofFunction? loopOnIsland true).toOption.any (fun g =>
      (g.solve (comesFromEntry g.toFlowGraph)).toOption.any fun solution =>
        solution.top.toList == [true, false, true]) = true := by cbv
  obtain ⟨g, graph, solvable⟩ := exists_eq_ok_of_any solvable
  obtain ⟨solution, solved, tops⟩ := exists_eq_ok_of_any solvable
  have monotone : (comesFromEntry g.toFlowGraph).Monotone := {
    bottom_le := Bool.false_le
    merge := fun before after less more below => by
      cases less <;> cases more <;> simp_all [comesFromEntry, Bool.le_iff_imp]
    transfer := fun _ _ _ below => below
  }
  exact ⟨g, solution, graph, monotone, solved, beq_iff_eq.mp tops,
    (Cfg.solve_least monotone solved).2⟩

end ThreeAddress
