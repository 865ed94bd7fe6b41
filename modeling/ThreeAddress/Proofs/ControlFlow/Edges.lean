import ThreeAddress.Proofs.ControlFlow.Blocks
import ThreeAddress.Proofs.Graph.Walks

/-! The edges of the graph of an accepted function, read off the operations that end its blocks, and
the entry, which no edge leads to.
-/

namespace ThreeAddress

namespace Cfg

variable {g : Cfg}

/-- The block that is found for a label has it. -/
theorem label_of_findLabel? {label : String} {b : g.Block}
    (found : findLabel? g.content label = some b)
    : g.label b = label := by
  have holds := List.find?_some (p := fun b : g.Block => (g.content.get b).label == label) found
  exact eq_of_beq holds

/-- Every block is found for its label. -/
theorem Proper.findLabel?_label (proper : g.Proper) (b : g.Block)
    : findLabel? g.content (g.label b) = some b := by
  cases found : findLabel? g.content (g.label b) with
  | some c => rw [proper.label_injective c b (label_of_findLabel? found)]
  | none =>
      have absent := List.find?_eq_none.mp found b (List.mem_finRange b)
      exact absurd (beq_self_eq_true (g.label b)) absent

/-- The blocks that a list of labels stands for are those with a label in it. -/
theorem Proper.mem_resolved (proper : g.Proper) {labels : List String} {c : g.Block}
    : c ∈ (labels.filterMap (findLabel? g.content)).eraseDups ↔ g.label c ∈ labels := by
  rw [List.mem_eraseDups, List.mem_filterMap]
  constructor
  · intro resolved
    obtain ⟨label, member, found⟩ := resolved
    exact label_of_findLabel? found ▸ member
  · intro member
    exact ⟨g.label c, member, proper.findLabel?_label c⟩

/-- Only one block, or none, comes next in the layout. -/
theorem mem_next {n : Nat} {b c : Fin n} : c ∈ next b ↔ c.val = b.val + 1 := by
  rw [next]
  split
  · simp [Fin.ext_iff]
  · next last =>
      simp only [List.not_mem_nil, false_iff]
      intro after
      exact last (after ▸ c.isLt)

/-- Control goes on from a block to the blocks that a branch at its end names or, without an
operation that ends it, to the next block.
-/
theorem Proper.mem_succs (proper : g.Proper) {b c : g.Block}
    : c ∈ g.succs b
      ↔ (∃ op, (g.body b).getLast? = some op ∧ g.label c ∈ op.branchTargets)
        ∨ (∀ op, (g.body b).getLast? = some op → op.isTerminator = false)
          ∧ c.val = b.val + 1 := by
  have here : (g.content.get b).body = g.body b := rfl
  rw [proper.succs_eq, targets, here]
  cases last : (g.body b).getLast? with
  | none => simp [mem_next]
  | some op =>
      cases code : op.opcode <;>
        simp [code, mem_next, proper.mem_resolved, Operation.branchTargets, Opcode.isBranch,
          Operation.isTerminator, Opcode.isTerminator]

/-- A branch at the end of a block has as many targets as it needs, all of them blocks. -/
theorem Proper.branch_labels (proper : g.Proper) {b : g.Block} {op : Operation} {width : Nat}
    (last : (g.body b).getLast? = some op) (branch : branchWidth? op.opcode = some width)
    : op.labels.length = width ∧ ∀ label ∈ op.labels, ∃ c, g.label c = label := by
  have fine := proper.no_fault b
  simp only [branchFault?] at fine
  change (g.body b).getLast?.bind _ = none at fine
  simp only [last, branch, Option.bind_some] at fine
  split at fine
  · next length =>
      refine ⟨length, fun label member => ?_⟩
      rw [Option.map_eq_none_iff, List.find?_eq_none] at fine
      have found := fine label member
      simp only [Option.isNone_iff_eq_none] at found
      obtain ⟨c, found⟩ := Option.ne_none_iff_exists'.mp found
      exact ⟨c, label_of_findLabel? found⟩
  · simp at fine

/-- A branch at the end of a block goes to blocks, along edges. -/
theorem Proper.exists_target (proper : g.Proper) {b : g.Block} {op : Operation} {label : String}
    (last : (g.body b).getLast? = some op) (target : label ∈ op.branchTargets)
    : ∃ c ∈ g.succs b, g.label c = label := by
  have known : ∃ c, g.label c = label := by
    unfold Operation.branchTargets at target
    split at target
    · next branch =>
        obtain ⟨width, known⟩ : ∃ width, branchWidth? op.opcode = some width := by
          cases code : op.opcode <;> simp_all [branchWidth?, Opcode.isBranch]
        exact (proper.branch_labels last known).2 label target
    · simp at target
  obtain ⟨c, rfl⟩ := known
  exact ⟨c, proper.mem_succs.mpr (.inl ⟨op, last, target⟩), rfl⟩

end Cfg

namespace Function

/-- All branches go to labels that the function declares. -/
def BranchesDeclared (f : Function) : Prop :=
  ∀ op ∈ f.operations, ∀ label ∈ op.branchTargets, label ∈ f.labels

/-- The entry block has the first label of the body with the entry label. -/
theorem entryBody_eq {f : Function} {allow : Bool} {g : Cfg}
    (ok : Cfg.ofFunction? f allow = .ok g)
    : ∃ rest, f.entryBody = .label (g.label g.entry) :: rest := by
  have head : g.layout.head? = some (g.content.get g.entry) := by
    rw [← g.map_content, List.head?_map]
    have first : g.blocks.head? = some g.entry := by
      rw [FlowGraph.blocks, List.head?_eq_getElem?,
        List.getElem?_eq_getElem (by simpa using g.size_pos)]
      simp [FlowGraph.entry]
    rw [first]
    rfl
  rw [← f.flatMap_flatten_layout, ← Cfg.layout_of_ok ok]
  cases layout : g.layout with
  | nil => simp [layout] at head
  | cons block rest =>
      rw [layout, List.head?_cons, Option.some.injEq] at head
      refine ⟨block.body.map .operation ++ rest.flatMap BasicBlock.flatten, ?_⟩
      simp [BasicBlock.flatten, head, Cfg.label]

/-- No branch goes to the entry, if all go to declared labels: an added entry has a label that the
function does not declare, and a written entry is kept only if it is no target.
-/
theorem entry_not_target {f : Function} {allow : Bool} {g : Cfg}
    (ok : Cfg.ofFunction? f allow = .ok g) (declared : f.BranchesDeclared)
    : ∀ op ∈ f.operations, g.label g.entry ∉ op.branchTargets := by
  obtain ⟨rest, shape⟩ := entryBody_eq ok
  rw [entryBody] at shape
  intro op member target
  cases added : f.needsEntry with
  | true =>
      rw [added, if_pos rfl] at shape
      obtain ⟨-, fault, -⟩ := Cfg.ofFunction?_eq_ok.mp ok
      have unique := (layoutFault?_eq_none.mp fault).1
      rw [map_label_layout, added, if_pos rfl, List.nodup_cons] at unique
      have label := Instruction.label.inj (List.cons.inj shape).1
      exact unique.1 (label ▸ declared op member _ target)
  | false =>
      rw [added, if_neg (by simp)] at shape
      have free : (f.operations.any fun op => op.branchTargets.contains (g.label g.entry)) = false
          := by
        simpa [needsEntry, firstLabel?, shape, Instruction.label?] using added
      rw [List.any_eq_false] at free
      exact free op member (List.contains_iff_mem.mpr target)

/-- An operation of a block is an operation of the function. -/
theorem mem_operations_of_mem_body {f : Function} {allow : Bool} {g : Cfg}
    (ok : Cfg.ofFunction? f allow = .ok g) {b : g.Block} {op : Operation} (member : op ∈ g.body b)
    : op ∈ f.operations := by
  rw [← flatMap_body_layout, ← Cfg.layout_of_ok ok, ← g.map_content]
  exact List.mem_flatMap.mpr ⟨_, List.mem_map.mpr ⟨b, g.mem_blocks b, rfl⟩, member⟩

/-- The entry has no predecessors, if all branches go to declared labels. -/
theorem preds_entry_eq_nil {f : Function} {allow : Bool} {g : Cfg}
    (ok : Cfg.ofFunction? f allow = .ok g) (declared : f.BranchesDeclared)
    : g.preds g.entry = [] := by
  rw [List.eq_nil_iff_forall_not_mem]
  intro p member
  rw [FlowGraph.mem_preds, (Cfg.proper_of_ok ok).mem_succs] at member
  rcases member with ⟨op, last, target⟩ | ⟨-, next⟩
  · have listed := mem_operations_of_mem_body ok (List.mem_of_getLast? last)
    exact entry_not_target ok declared op listed target
  · exact absurd next (by simp [FlowGraph.entry])

end Function

end ThreeAddress
