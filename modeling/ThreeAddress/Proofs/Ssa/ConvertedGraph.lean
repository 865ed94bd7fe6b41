import ThreeAddress.Proofs.ControlFlow.Rebuilding
import ThreeAddress.Proofs.Ssa.Converted

/-! The graph of a converted function is that of the function, with the renamed operations in its
blocks: renaming changes names only, and a phi ends no block.
-/

namespace ThreeAddress

/-- A block ends in the way that the shape of its last operation tells. -/
theorem BasicBlock.exit?_eq_of_shape {block other : BasicBlock}
    (same : block.body.map RenamePlan.shape = other.body.map RenamePlan.shape)
    : block.exit? = other.exit? := by
  have last
      : block.body.getLast?.map RenamePlan.shape = other.body.getLast?.map RenamePlan.shape := by
    rw [← List.getLast?_map, same, List.getLast?_map]
  have shaped (ops : List Operation)
      : (ops.getLast?.filter Operation.isTerminator).map (fun op => (op.opcode, op.labels))
        = ((ops.getLast?.map RenamePlan.shape).filter Operation.isTerminator).map
            fun op => (op.opcode, op.labels) := by
    cases ops.getLast? with
    | none => rfl
    | some op =>
        have ends : (RenamePlan.shape op).isTerminator = op.isTerminator := rfl
        rw [Option.map_some, Option.filter_some, Option.filter_some, ends]
        split <;> rfl
  rw [exit?, exit?, terminator?, terminator?, shaped, shaped, last]

/-- Phis in front of a block leave the way it ends. -/
theorem BasicBlock.exit?_append_of_phis {label : String} {phis ops : List Operation}
    (all : ∀ op ∈ phis, op.isPhi = true)
    : ({ label, body := phis ++ ops } : BasicBlock).exit?
      = ({ label, body := ops } : BasicBlock).exit? := by
  rw [exit?, exit?, terminator?, terminator?, List.getLast?_append]
  cases ops.getLast? with
  | some op => rfl
  | none =>
      cases last : phis.getLast? with
      | none => rfl
      | some phi =>
          have code := all phi (List.mem_of_getLast? last)
          rw [Operation.isPhi, beq_iff_eq] at code
          simp [Operation.isTerminator, Opcode.isTerminator, code]

namespace Converts

variable {f f' : Function} {config : SsaConfig} {plan : RenamePlan} {initial : Versions}
  {state : Renaming plan}

theorem no_phi_in_body (conversion : Converts f config f' plan initial state) (b : plan.cfg.Block)
    : ∀ op ∈ plan.cfg.body b, op.isPhi = false := by
  intro op member
  have none := conversion.no_phi
  rw [Function.hasPhi, List.any_eq_false] at none
  have listed := Function.mem_operations_of_mem_body conversion.graph member
  exact Bool.eq_false_iff.mpr (none op listed)

theorem map_shape_body (conversion : Converts f config f' plan initial state)
    (b : plan.cfg.Block)
    : (state.blockAt b).body.map RenamePlan.shape = (plan.cfg.body b).map RenamePlan.shape := by
  obtain ⟨pushed, renamed⟩ := conversion.complete.renamed b
  obtain ⟨inside, later, -, body, -⟩ := RenamePlan.renameBlock_eq_ok renamed
  exact RenamePlan.map_shape_renameBody body

/-- What holds of the shapes of all operations of a block holds of the renamed ones. -/
theorem forall_shape (conversion : Converts f config f' plan initial state)
    (b : plan.cfg.Block) {P : Operation → Prop}
    (all : ∀ op ∈ plan.cfg.body b, P (RenamePlan.shape op))
    : ∀ op ∈ (state.blockAt b).body, P (RenamePlan.shape op) := by
  rw [← List.forall_mem_map, conversion.map_shape_body, List.forall_mem_map]
  exact all

theorem no_phi_in_renamed (conversion : Converts f config f' plan initial state)
    (b : plan.cfg.Block)
    : ∀ op ∈ (state.blockAt b).body, op.isPhi = false :=
  conversion.forall_shape b (P := fun op => op.isPhi = false) (conversion.no_phi_in_body b)

/-- Without its phis a block of the converted function is the renamed one. -/
theorem filter_body (conversion : Converts f config f' plan initial state) (b : plan.cfg.Block)
    : ((state.body b).filter fun op => !op.isPhi) = (state.blockAt b).body := by
  rw [conversion.complete.body_eq, List.filter_append, List.filter_eq_nil_iff.mpr, List.nil_append,
    List.filter_eq_self]
  · intro op member
    simp [conversion.no_phi_in_renamed b op member]
  · intro op member
    simp [Renaming.isPhi_of_mem_phis member]

/-- The phis of a block of the converted function are those that have been placed there. -/
theorem filter_isPhi_body (conversion : Converts f config f' plan initial state)
    (b : plan.cfg.Block)
    : (state.body b).filter Operation.isPhi = state.phis b := by
  rw [conversion.complete.body_eq, List.filter_append, List.filter_eq_self.mpr,
    List.filter_eq_nil_iff.mpr, List.append_nil]
  · intro op member
    simp [conversion.no_phi_in_renamed b op member]
  · exact fun op => Renaming.isPhi_of_mem_phis

/-- All phis of the converted function are those that have been placed. -/
theorem exists_phi (conversion : Converts f config f' plan initial state) {b : plan.cfg.Block}
    {op : Operation} (listed : op ∈ state.body b) (isPhi : op.isPhi = true)
    : ∃ var name, (var, name) ∈ (plan.placement.varsAt b).zip (state.blockAt b).phiDests
        ∧ op = state.phi b var name := by
  rw [conversion.complete.body_eq, List.mem_append] at listed
  rcases listed with phi | other
  · exact Renaming.exists_of_mem_phis phi
  · simp [conversion.no_phi_in_renamed b op other] at isPhi

/-- No branch of the converted function goes to its entry either: phis name no targets, and all
other operations are those of the function up to names.
-/
theorem not_needsEntry (conversion : Converts f config f' plan initial state)
    (declared : f.BranchesDeclared)
    : f'.needsEntry = false := by
  have complete := conversion.complete
  have block := Cfg.assembleFrom_block state.body plan.cfg.entry
  have starts : f'.firstLabel? = some (plan.cfg.label plan.cfg.entry) := by
    have whole : plan.cfg.assembleFrom state.body plan.cfg.entry = f'.body := conversion.body.symm
    rw [whole] at block
    rw [Function.firstLabel?, block]
    rfl
  rw [Function.needsEntry, starts]
  simp only [List.any_eq_false, Function.operations, conversion.body, Cfg.operations_assemble,
    List.mem_flatMap, FlowGraph.mem_blocks, true_and, forall_exists_index]
  intro op b member
  rw [complete.body_eq, List.mem_append] at member
  rcases member with phi | renamed
  · have code := Renaming.isPhi_of_mem_phis phi
    rw [Operation.isPhi, beq_iff_eq] at code
    simp [Operation.branchTargets, code, Opcode.isBranch]
  · have other : ∀ old ∈ plan.cfg.body b,
        plan.cfg.label plan.cfg.entry ∉ (RenamePlan.shape old).branchTargets := by
      intro old member
      exact Function.entry_not_target conversion.graph declared old
        (Function.mem_operations_of_mem_body conversion.graph member)
    rw [List.contains_iff_mem]
    exact conversion.forall_shape b
      (P := fun op => plan.cfg.label plan.cfg.entry ∉ op.branchTargets) other op renamed

/-- The graph of the converted function has the blocks and edges of that of the function. -/
theorem graph_converted (conversion : Converts f config f' plan initial state)
    (declared : f.BranchesDeclared)
    : Cfg.ofFunction? f' = .ok (plan.cfg.withBodies state.body) := by
  have complete := conversion.complete
  refine Cfg.ofFunction?_withBodies state.body conversion.graph conversion.same_name conversion.body
    (conversion.not_needsEntry declared) ?_ ?_
  · intro b
    rw [complete.body_eq, BasicBlock.exit?_append_of_phis fun op => Renaming.isPhi_of_mem_phis]
    exact BasicBlock.exit?_eq_of_shape (conversion.map_shape_body b)
  · intro b op member
    rw [complete.body_eq, List.dropLast_append] at member
    have phi (listed : op ∈ state.phis b) : op.isTerminator = false := by
      have code := Renaming.isPhi_of_mem_phis listed
      rw [Operation.isPhi, beq_iff_eq] at code
      rw [Operation.isTerminator, code]
      rfl
    split at member
    · exact phi (List.dropLast_subset _ member)
    · rcases List.mem_append.mp member with listed | inner
      · exact phi listed
      · have shapes : (state.blockAt b).body.dropLast.map RenamePlan.shape
            = (plan.cfg.body b).dropLast.map RenamePlan.shape := by
          rw [List.map_dropLast, conversion.map_shape_body, List.map_dropLast]
        have listed := List.mem_map_of_mem inner (f := RenamePlan.shape)
        rw [shapes, List.mem_map] at listed
        obtain ⟨old, within, same⟩ := listed
        have ends : op.isTerminator = old.isTerminator :=
          (congrArg Operation.isTerminator same).symm
        rw [ends]
        exact (Cfg.proper_of_ok conversion.graph).terminator_last b old within

end Converts

end ThreeAddress
