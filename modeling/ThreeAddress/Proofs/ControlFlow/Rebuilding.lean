import Mathlib.Data.List.FinRange
import ThreeAddress.Proofs.ControlFlow.Assembly

/-! The graph of a function that has been put together from the blocks of another, with new
operations but the same branches: it has the same edges.
-/

namespace ThreeAddress

-----------------------------------------------------------------------------------------
-- Edges and faults depend on the ends of blocks only
-----------------------------------------------------------------------------------------

/-- How a block ends: the code and the labels of the operation that ends it, if there is one. -/
def BasicBlock.exit? (block : BasicBlock) : Option (Opcode × List String) :=
  block.terminator?.map fun op => (op.opcode, op.labels)

namespace Cfg

theorem targets_eq {n : Nat} (content : Vector BasicBlock n) (b : Fin n)
    : targets content b
      = match (content.get b).exit? with
        | some (.jmp, labels) | some (.br, labels) =>
          (labels.filterMap (findLabel? content)).eraseDups
        | some (.ret, _) => []
        | _ => next b := by
  rw [targets, BasicBlock.exit?, BasicBlock.terminator?]
  cases (content.get b).body.getLast? with
  | none => rfl
  | some op =>
      cases code : op.opcode <;>
        simp [Option.filter, Operation.isTerminator, Opcode.isTerminator, code]

theorem branchFault?_eq {n : Nat} (content : Vector BasicBlock n) (b : Fin n)
    : branchFault? content b
      = (content.get b).exit?.bind fun exit =>
          (branchWidth? exit.1).bind fun expected =>
            if exit.2.length = expected then
              (exit.2.find? fun target => (findLabel? content target).isNone).map
                (.undeclaredLabel (content.get b).label)
            else
              some (.branchArity (content.get b).label exit.1 expected exit.2.length) := by
  rw [branchFault?, BasicBlock.exit?, BasicBlock.terminator?]
  cases (content.get b).body.getLast? with
  | none => rfl
  | some op =>
      cases code : op.opcode <;>
        simp [Option.filter, Operation.isTerminator, Opcode.isTerminator, code, branchWidth?]

-----------------------------------------------------------------------------------------
-- The graph with new operations
-----------------------------------------------------------------------------------------

/-- The blocks of a graph with other operations in them. -/
def rebuilt (g : Cfg) (bodyOf : g.Block → List Operation) : Vector BasicBlock g.size :=
  Vector.ofFn fun b => { label := g.label b, body := bodyOf b }

/-- The graph with other operations in its blocks, all of them written. -/
def withBodies (g : Cfg) (bodyOf : g.Block → List Operation) : Cfg :=
  { g with
    content := g.rebuilt bodyOf
    hasAddedEntry := false }

section withBodies

variable {g : Cfg} (bodyOf : g.Block → List Operation)

theorem get_rebuilt (b : g.Block)
    : (g.rebuilt bodyOf).get b = { label := g.label b, body := bodyOf b } :=
  Vector.getElem_ofFn b.isLt

theorem label_withBodies (b : g.Block) : (g.withBodies bodyOf).label b = g.label b := by
  change ((g.rebuilt bodyOf).get b).label = g.label b
  rw [get_rebuilt]

theorem body_withBodies (b : g.Block) : (g.withBodies bodyOf).body b = bodyOf b := by
  change ((g.rebuilt bodyOf).get b).body = bodyOf b
  rw [get_rebuilt]

theorem toList_rebuilt
    : (g.rebuilt bodyOf).toList
      = g.blocks.map fun b => { label := g.label b, body := bodyOf b } := by
  rw [rebuilt, Vector.toList_ofFn, List.ofFn_eq_map]
  rfl

theorem findLabel?_rebuilt (label : String)
    : findLabel? (g.rebuilt bodyOf) label = findLabel? g.content label := by
  have same : (fun b : g.Block => ((g.rebuilt bodyOf).get b).label == label)
      = fun b : g.Block => (g.content.get b).label == label := by
    funext b
    rw [get_rebuilt]
    rfl
  exact congrArg (fun p => (List.finRange g.size).find? p) same

/-- The blocks of a flat body that is put together from them, by induction on the blocks. -/
theorem divide_flatMap_flatten (blocks : List BasicBlock)
    : divide (blocks.flatMap BasicBlock.flatten) = ([], blocks) := by
  have skip (ops : List Operation) (rest : List Instruction)
      : divide (ops.map .operation ++ rest) = (ops ++ (divide rest).1, (divide rest).2) := by
    induction ops with
    | nil => rfl
    | cons op ops ih => simp only [List.map_cons, List.cons_append, divide, ih]
  induction blocks with
  | nil => rfl
  | cons block rest ih =>
      rw [List.flatMap_cons, BasicBlock.flatten, List.cons_append, divide, skip, ih]
      simp

/-- The graph of blocks that are listed as a vector. -/
theorem ofBlocks_toList {n : Nat} (func : String) (added : Bool) (content : Vector BasicBlock n)
    (positive : 0 < n) {blocks : List BasicBlock} (same : blocks = content.toList)
    (nonempty : blocks ≠ [])
    : ofBlocks func added blocks nonempty
      = { size := n, size_pos := positive, edges := Vector.ofFn (targets content), func, content,
          hasAddedEntry := added } := by
  subst same
  obtain ⟨⟨blocks⟩, rfl⟩ := content
  rfl

/-- New operations that end each block in the same way, and end it at its end, leave an accepted
function accepted, and with the same edges.
-/
theorem ofFunction?_rebuilt {f f' : Function} {allow : Bool} (ok : ofFunction? f allow = .ok g)
    (name : f'.name = f.name) (nonempty : f'.body ≠ [])
    (layout : f'.layout = (g.rebuilt bodyOf).toList)
    (exits
      : ∀ b, ({ label := g.label b, body := bodyOf b } : BasicBlock).exit?
          = (g.content.get b).exit?)
    (inner : ∀ b, ∀ op ∈ (bodyOf b).dropLast, op.isTerminator = false)
    : ofFunction? f' allow
      = .ok { g with content := g.rebuilt bodyOf, hasAddedEntry := f'.needsEntry } := by
  have proper := proper_of_ok ok
  have exits' (b : g.Block) : ((g.rebuilt bodyOf).get b).exit? = (g.content.get b).exit? := by
    rw [get_rebuilt]
    exact exits b
  have labels : findLabel? (g.rebuilt bodyOf) = findLabel? g.content :=
    funext (findLabel?_rebuilt bodyOf)
  have sameTargets : targets (g.rebuilt bodyOf) = targets g.content := by
    funext b
    rw [targets_eq, targets_eq, exits', labels]
  have edges : g.edges = Vector.ofFn (targets g.content) := by
    apply Vector.ext
    intro b inside
    rw [Vector.getElem_ofFn]
    exact proper.succs_eq ⟨b, inside⟩
  obtain ⟨-, fault, whole, faults, reached⟩ := ofFunction?_eq_ok.mp ok
  have func : g.func = f.name := by rw [whole]; rfl
  have sound (b : g.Block) : branchFault? (g.rebuilt bodyOf) b = none := by
    have label : ((g.rebuilt bodyOf).get b).label = (g.content.get b).label := by
      rw [get_rebuilt]
      rfl
    rw [branchFault?_eq, exits', labels, label, ← branchFault?_eq]
    exact faults b
  refine ofFunction?_eq_ok.mpr ⟨nonempty, ?_, ?_, fun b => ?_, reached⟩
  · rw [Function.layoutFault?_eq_none, layout, toList_rebuilt]
    constructor
    · rw [List.map_map]
      exact (List.nodup_finRange _).map proper.label_injective
    · intro block member
      obtain ⟨b, -, rfl⟩ := List.mem_map.mp member
      exact ⟨List.not_mem_nil, inner b⟩
  · rw [ofBlocks_toList f'.name f'.needsEntry (g.rebuilt bodyOf) g.size_pos layout, sameTargets,
      ← edges, name, ← func]
  · exact sound b

/-- A function that is put together from the blocks of an accepted one, with new operations that end
each block in the same way, is accepted with the same edges, as long as no branch goes to its first
label.
-/
theorem ofFunction?_withBodies {f f' : Function} {allow : Bool} (ok : ofFunction? f allow = .ok g)
    (name : f'.name = f.name) (body : f'.body = g.assemble bodyOf) (starts : f'.needsEntry = false)
    (exits
      : ∀ b, ({ label := g.label b, body := bodyOf b } : BasicBlock).exit?
          = (g.content.get b).exit?)
    (inner : ∀ b, ∀ op ∈ (bodyOf b).dropLast, op.isTerminator = false)
    : ofFunction? f' allow = .ok (g.withBodies bodyOf) := by
  have divided : divide f'.body = ([], (g.rebuilt bodyOf).toList) := by
    rw [body, toList_rebuilt, ← divide_flatMap_flatten, List.flatMap_map]
    rfl
  have layout : f'.layout = (g.rebuilt bodyOf).toList := by
    rw [Function.layout, starts, if_neg (by simp), divided]
  have nonempty : f'.body ≠ [] := by
    have first := assembleFrom_block bodyOf g.entry
    rw [body, ← assembleFrom_zero]
    exact List.ne_nil_of_length_eq_add_one (congrArg List.length first)
  have accepted := ofFunction?_rebuilt bodyOf ok name nonempty layout exits inner
  rw [starts] at accepted
  exact accepted

end withBodies

end Cfg

end ThreeAddress
