import ThreeAddress.Proofs.Execution.Machine
import ThreeAddress.Proofs.ControlFlow.Edges

/-! Flat bodies that are put together from blocks, and what follows the label of a block in them. -/

namespace ThreeAddress

namespace Cfg

variable {g : Cfg}

/-- The end of a flat body, from some block on. -/
def assembleFrom (g : Cfg) (bodyOf : g.Block → List Operation) (first : Nat) : List Instruction :=
  (g.blocks.drop first).flatMap fun b =>
    { label := g.label b, body := bodyOf b : BasicBlock }.flatten

theorem assembleFrom_zero (g : Cfg) (bodyOf : g.Block → List Operation)
    : g.assembleFrom bodyOf 0 = g.assemble bodyOf :=
  rfl

theorem assembleFrom_size (g : Cfg) (bodyOf : g.Block → List Operation)
    : g.assembleFrom bodyOf g.size = [] := by
  rw [assembleFrom, FlowGraph.blocks, List.drop_eq_nil_of_le (by simp), List.flatMap_nil]

/-- A flat body goes on with the label of a block, its operations and the next block. -/
theorem assembleFrom_block (bodyOf : g.Block → List Operation) (b : g.Block)
    : g.assembleFrom bodyOf b
      = .label (g.label b) :: ((bodyOf b).map .operation ++ g.assembleFrom bodyOf (b + 1)) := by
  have inside : b.val < g.blocks.length := by simp [FlowGraph.blocks]
  rw [assembleFrom, List.drop_eq_getElem_cons inside, List.flatMap_cons]
  simp [FlowGraph.blocks, BasicBlock.flatten, assembleFrom]

/-- After the label of a block stand its operations and all later blocks. By induction on the number
of blocks in front of it.
-/
theorem afterLabel?_assembleFrom (injective : ∀ b c, g.label b = g.label c → b = c)
    (bodyOf : g.Block → List Operation) (b : g.Block) (ahead : Nat) (first : Nat)
    (between : first + ahead = b.val)
    : afterLabel? (g.label b) (g.assembleFrom bodyOf first)
      = some ((bodyOf b).map .operation ++ g.assembleFrom bodyOf (b + 1)) := by
  have skip (ops : List Operation) (rest : List Instruction)
      : afterLabel? (g.label b) (ops.map .operation ++ rest) = afterLabel? (g.label b) rest := by
    induction ops with
    | nil => rfl
    | cons op ops ih => exact ih
  induction ahead generalizing first with
  | zero =>
      obtain rfl : first = b.val := by omega
      rw [assembleFrom_block, afterLabel?, if_pos rfl]
  | succ ahead ih =>
      have inside : first < g.size := by omega
      have other : g.label ⟨first, inside⟩ ≠ g.label b := by
        intro same
        have equal := congrArg Fin.val (injective _ _ same)
        simp only at equal
        omega
      have block := assembleFrom_block bodyOf (⟨first, inside⟩ : g.Block)
      simp only at block
      rw [block, afterLabel?, if_neg other, skip]
      exact ih (first + 1) (by omega)

/-- The operations of a flat body are those of its blocks. -/
theorem operations_assemble (g : Cfg) (bodyOf : g.Block → List Operation)
    : (g.assemble bodyOf).filterMap Instruction.operation? = g.blocks.flatMap bodyOf := by
  rw [assemble, List.filterMap_flatMap]
  simp only [BasicBlock.operations_flatten]

end Cfg

namespace Function

variable {f : Function} {allow : Bool} {g : Cfg}

/-- The body of an accepted function is assembled from the blocks of its graph. -/
theorem entryBody_eq_assemble (ok : Cfg.ofFunction? f allow = .ok g)
    : f.entryBody = g.assemble g.body := by
  rw [← flatMap_flatten_layout, ← Cfg.layout_of_ok ok, ← g.map_content, List.flatMap_map]
  rfl

theorem operations_eq_flatMap (ok : Cfg.ofFunction? f allow = .ok g)
    : f.operations = g.blocks.flatMap g.body := by
  rw [← flatMap_body_layout, ← Cfg.layout_of_ok ok, ← g.map_content, List.flatMap_map]
  rfl

/-- What an accepted function defines are its parameters and, block by block, its results. -/
theorem definitions_eq_flatMap (ok : Cfg.ofFunction? f allow = .ok g)
    : f.definitions = f.params.map Param.name
        ++ g.blocks.flatMap fun b => (g.body b).filterMap Operation.dest := by
  rw [definitions, operations_eq_flatMap ok, List.filterMap_flatMap]

/-- A block other than the entry is found in the body as it is written. -/
theorem afterLabel?_body (ok : Cfg.ofFunction? f allow = .ok g) {b : g.Block} (other : b ≠ g.entry)
    : afterLabel? (g.label b) f.body
      = some ((g.body b).map .operation ++ g.assembleFrom g.body (b + 1)) := by
  have injective := (Cfg.proper_of_ok ok).label_injective
  have whole := Cfg.afterLabel?_assembleFrom injective g.body b b.val 0 (by omega)
  rw [Cfg.assembleFrom_zero, ← entryBody_eq_assemble ok] at whole
  rw [← whole]
  obtain ⟨rest, shape⟩ := entryBody_eq ok
  have apart : g.label g.entry ≠ g.label b := fun same => other (injective _ _ same).symm
  rw [entryBody] at shape ⊢
  split
  · next added =>
      rw [if_pos added] at shape
      rw [(List.cons.inj shape).1, afterLabel?, if_neg apart]
  · rfl

end Function

end ThreeAddress
