import ThreeAddress.Proofs.ControlFlow.Edges
import ThreeAddress.Proofs.Dataflow.Solving

/-! The order of edges. Successors come in the order in which a branch lists its targets, each of
them once. Both the successors and the predecessors of blocks are the lists that come about when the
edges are added one after another, block by block.
-/

namespace ThreeAddress

-----------------------------------------------------------------------------------------
-- Lists without repetitions
-----------------------------------------------------------------------------------------

/-- Leaving out repetitions goes with renaming, if different members get different names. -/
theorem eraseDups_map {α β : Type} [DecidableEq α] [DecidableEq β] {f : α → β}
    (injective : ∀ a b, f a = f b → a = b)
    : ∀ l : List α, (l.map f).eraseDups = l.eraseDups.map f
  | [] => rfl
  | a :: l => by
    have same : (fun b => !b == f a) ∘ f = fun b => !b == a := by
      funext b
      rw [Function.comp_apply, Bool.eq_iff_iff]
      simpa using not_congr ⟨injective b a, congrArg f⟩
    rw [List.map_cons, List.eraseDups_cons, List.eraseDups_cons, List.map_cons, List.filter_map,
      same, eraseDups_map injective (l.filter fun b => !b == a)]
termination_by l => l.length
decreasing_by exact Nat.lt_succ_of_le (List.length_filter_le _ l)

/-- A queue is prolonged by what is not in it, each once. By induction on what is put into it. -/
theorem enqueue_eq {α : Type} [DecidableEq α] (queue more : List α)
    : enqueue queue more = queue ++ (more.filter fun a => !queue.contains a).eraseDups := by
  induction more generalizing queue with
  | nil => simp [enqueue]
  | cons a more ih =>
      have first : enqueue queue (a :: more)
          = enqueue (if queue.contains a then queue else queue ++ [a]) more := rfl
      rw [first, ih]
      by_cases old : queue.contains a = true
      · rw [if_pos old, List.filter_cons_of_neg (by simpa using old)]
      · rw [if_neg old, List.filter_cons_of_pos (by simpa using old), List.eraseDups_cons,
          List.filter_filter, List.append_assoc, List.singleton_append]
        congr 4
        funext b
        simp [Bool.and_comm, Bool.beq_eq_decide_eq]

-----------------------------------------------------------------------------------------
-- Edges added one after another
-----------------------------------------------------------------------------------------

/-- The blocks that edges lead to from each block, and those from which edges lead to it. -/
structure EdgeLists (α : Type) where
  succs : α → List α := fun _ => []
  preds : α → List α := fun _ => []

namespace EdgeLists

variable {α : Type} [DecidableEq α] (edges : EdgeLists α) (targets : α → List α)

/-- Lists an edge behind the others of both its blocks, unless it is listed. -/
def add (a b : α) : EdgeLists α where
  succs c := if c = a then enqueue (edges.succs a) [b] else edges.succs c
  preds c := if c = b then enqueue (edges.preds b) [a] else edges.preds c

/-- Adds edges from a block to others in turn. -/
def addFrom (a : α) (bs : List α) : EdgeLists α :=
  bs.foldl (fun edges b => edges.add a b) edges

/-- Adds edges from blocks in turn, from each to its targets. -/
def addAll (blocks : List α) : EdgeLists α :=
  blocks.foldl (fun edges a => edges.addFrom a (targets a)) edges

/-- Edges from a block are listed behind those that it has, in the order in which they are added. -/
theorem succs_addFrom (a : α) (bs : List α) (c : α)
    : (edges.addFrom a bs).succs c
      = if c = a then enqueue (edges.succs a) bs else edges.succs c := by
  induction bs generalizing edges with
  | nil => by_cases here : c = a <;> simp [addFrom, enqueue, here]
  | cons b bs ih =>
      refine (ih (edges.add a b)).trans ?_
      by_cases here : c = a
      · simp [here, add, enqueue]
      · simp [here, add]

/-- A block that edges are added from precedes each of their targets, and is listed there once. -/
theorem preds_addFrom (a : α) (bs : List α) (c : α)
    : (edges.addFrom a bs).preds c
      = if c ∈ bs then enqueue (edges.preds c) [a] else edges.preds c := by
  induction bs generalizing edges with
  | nil => simp [addFrom]
  | cons b bs ih =>
      have again (queue : List α) : enqueue (enqueue queue [a]) [a] = enqueue queue [a] := by
        by_cases old : a ∈ queue <;> simp [enqueue, old]
      refine (ih (edges.add a b)).trans ?_
      by_cases here : c = b
      · simp [here, add, again]
      · simp [here, add]

variable {edges targets} {blocks : List α}

/-- The targets of each block are listed behind its successors, by induction on the blocks. -/
theorem succs_addAll (unique : blocks.Nodup) (c : α)
    : (edges.addAll targets blocks).succs c
      = if c ∈ blocks then enqueue (edges.succs c) (targets c) else edges.succs c := by
  induction blocks generalizing edges with
  | nil => simp [addAll]
  | cons a rest ih =>
      obtain ⟨absent, unique⟩ := List.nodup_cons.mp unique
      refine (ih unique).trans ?_
      rw [succs_addFrom]
      by_cases here : c = a
      · simp [here, absent]
      · simp [here]

/-- The predecessors of a block are those of the blocks of which it is a target, in their order. By
induction on the blocks.
-/
theorem preds_addAll (unique : blocks.Nodup) (none : ∀ a ∈ blocks, ∀ c, a ∉ edges.preds c) (c : α)
    : (edges.addAll targets blocks).preds c
      = edges.preds c ++ blocks.filter fun a => (targets a).contains c := by
  induction blocks generalizing edges with
  | nil => simp [addAll]
  | cons a rest ih =>
      obtain ⟨absent, unique⟩ := List.nodup_cons.mp unique
      have new : enqueue (edges.preds c) [a] = edges.preds c ++ [a] := by
        simp [enqueue, none a List.mem_cons_self c]
      have later : ∀ b ∈ rest, ∀ d, b ∉ (edges.addFrom a (targets a)).preds d := by
        intro b member d
        have other : b ≠ a := fun same => absent (same ▸ member)
        have old := none b (List.mem_cons_of_mem _ member) d
        rw [preds_addFrom]
        split
        · simp [Analysis.mem_enqueue, old, other]
        · exact old
      refine (ih unique later).trans ?_
      rw [preds_addFrom, new]
      by_cases target : c ∈ targets a
      · simp [target]
      · simp [target]

end EdgeLists

-----------------------------------------------------------------------------------------
-- The edges of a graph
-----------------------------------------------------------------------------------------

namespace Cfg

variable {g : Cfg}

/-- Where control may go from the end of a block: to the targets of a branch, as it lists them, and
on to the next block if no operation ends this one.
-/
def exits (g : Cfg) (b : g.Block) : List g.Block :=
  match (g.content.get b).terminator? with
  | some op => op.branchTargets.filterMap g.blockOf?
  | none => next b

theorem eraseDups_next {n : Nat} (b : Fin n) : (next b).eraseDups = next b := by
  unfold next
  split <;> simp [List.eraseDups_cons]

/-- Successors are the blocks where control may go, each once. -/
theorem Proper.succs_eq_eraseDups (proper : g.Proper) (b : g.Block)
    : g.succs b = (g.exits b).eraseDups := by
  rw [proper.succs_eq, targets, exits, BasicBlock.terminator?]
  cases (g.content.get b).body.getLast? with
  | none => exact (eraseDups_next b).symm
  | some op =>
      cases code : op.opcode <;>
        simp [Option.filter, Operation.isTerminator, Opcode.isTerminator, Operation.branchTargets,
          Opcode.isBranch, code, eraseDups_next] <;> rfl

/-- The targets of a branch at the end of a block have the labels it lists. -/
theorem Proper.map_label_exits (proper : g.Proper) {b : g.Block} {op : Operation}
    (ends : (g.content.get b).terminator? = some op)
    : (g.exits b).map g.label = op.branchTargets := by
  have last : (g.body b).getLast? = some op := (Option.filter_eq_some_iff.mp ends).1
  have found (label : String) (target : label ∈ op.branchTargets)
      : (g.blockOf? label).map g.label = some label := by
    obtain ⟨c, -, rfl⟩ := proper.exists_target last target
    rw [blockOf?, proper.findLabel?_label, Option.map_some]
  rw [exits, ends, List.map_filterMap]
  exact (List.filterMap_congr found).trans List.filterMap_some

/-- The labels of the successors are those that the branch lists, each once. -/
theorem Proper.map_label_succs (proper : g.Proper) {b : g.Block} {op : Operation}
    (ends : (g.content.get b).terminator? = some op)
    : (g.succs b).map g.label = op.branchTargets.eraseDups := by
  rw [proper.succs_eq_eraseDups, ← eraseDups_map proper.label_injective,
    proper.map_label_exits ends]

/-- If no operation ends a block, control goes on to the next one, or there is none. -/
theorem Proper.succs_eq_next (proper : g.Proper) {b : g.Block}
    (open_ : (g.content.get b).terminator? = none)
    : g.succs b = next b := by
  rw [proper.succs_eq_eraseDups, exits, open_]
  exact eraseDups_next b

/-- The edges of a graph, added one after another. -/
def edgesAdded (g : Cfg) : EdgeLists g.Block :=
  ({} : EdgeLists g.Block).addAll g.exits g.blocks

/-- Successors and predecessors are listed in the order in which the edges are added. -/
theorem Proper.edges_eq_added (proper : g.Proper)
    : g.succs = g.edgesAdded.succs ∧ g.preds = g.edgesAdded.preds := by
  have unique : g.blocks.Nodup := List.nodup_finRange _
  constructor
  · funext b
    refine Eq.trans ?_ (EdgeLists.succs_addAll unique b).symm
    rw [proper.succs_eq_eraseDups, if_pos (g.mem_blocks b), enqueue_eq]
    simp
  · funext b
    have same (a : g.Block) : (g.succs a).contains b = (g.exits a).contains b := by
      rw [Bool.eq_iff_iff, List.contains_iff_mem, List.contains_iff_mem,
        proper.succs_eq_eraseDups, List.mem_eraseDups]
    refine Eq.trans ?_ (EdgeLists.preds_addAll unique (fun _ _ _ => List.not_mem_nil) b).symm
    simp only [FlowGraph.preds, same, List.nil_append]

/-- Edges come from the operations that end blocks, in the order in which a branch lists its targets
and each target once, or from falling through to the next block where nothing ends a block. Both
ends of an edge know of it, and the lists are those that adding the edges block by block gives, so
that predecessors are in layout order.
-/
structure EdgesInOrder (g : Cfg) : Prop where
  branches
    : ∀ b op, (g.content.get b).terminator? = some op →
        (g.succs b).map g.label = op.branchTargets.eraseDups
  fallsThrough : ∀ b, (g.content.get b).terminator? = none → g.succs b = next b
  mem_succs_iff_mem_preds : ∀ a b, b ∈ g.succs a ↔ a ∈ g.preds b
  preds_sorted : ∀ b, (g.preds b).Pairwise (· < ·)
  asAdded : g.succs = g.edgesAdded.succs ∧ g.preds = g.edgesAdded.preds

theorem Proper.edgesInOrder (proper : g.Proper) : g.EdgesInOrder where
  branches _ _ ends := proper.map_label_succs ends
  fallsThrough _ open_ := proper.succs_eq_next open_
  mem_succs_iff_mem_preds a b := (g.mem_preds b a).symm
  preds_sorted _ := (List.pairwise_lt_finRange g.size).filter _
  asAdded := proper.edges_eq_added

end Cfg

end ThreeAddress
