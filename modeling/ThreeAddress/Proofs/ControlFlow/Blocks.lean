import Mathlib.Data.List.Nodup
import ThreeAddress.ControlFlow.Cfg

/-! What is true of the blocks of an accepted function: they are the whole body in order, their
labels are distinct, nothing follows an operation that ends a block, and all branches go to blocks.
-/

namespace ThreeAddress

theorem exists_eq_ok_of_isOk {ε α : Type} {result : Except ε α} (accepted : result.isOk = true)
    : ∃ value, result = .ok value := by
  cases result with
  | error fault => cases accepted
  | ok value => exact ⟨value, rfl⟩

/-- A result that passes a test is no error. -/
theorem exists_eq_ok_of_any {ε α : Type} {result : Except ε α} {test : α → Bool}
    (passed : result.toOption.any test = true)
    : ∃ value, result = .ok value ∧ test value = true := by
  cases result with
  | error fault => cases passed
  | ok value => exact ⟨value, rfl, passed⟩

-----------------------------------------------------------------------------------------
-- Dividing a body loses nothing
-----------------------------------------------------------------------------------------

/-- The operations in front and the blocks, put together again, are the body. -/
theorem divide_flatten (body : List Instruction)
    : (divide body).1.map .operation ++ (divide body).2.flatMap BasicBlock.flatten = body := by
  induction body with
  | nil => rfl
  | cons instruction rest ih =>
      cases instruction with
      | operation op => simp only [divide, List.map_cons, List.cons_append, ih]
      | label name =>
          simp only [divide, List.map_nil, List.nil_append, List.flatMap_cons, BasicBlock.flatten,
            List.cons_append, ih]

/-- Operations of a flattened block are those of its body. -/
theorem BasicBlock.operations_flatten (block : BasicBlock)
    : block.flatten.filterMap Instruction.operation? = block.body := by
  simp only [flatten, List.filterMap_cons, Instruction.operation?, List.filterMap_map]
  exact List.filterMap_some

/-- A flattened block declares its label and no other. -/
theorem BasicBlock.labels_flatten (block : BasicBlock)
    : block.flatten.filterMap Instruction.label? = [block.label] := by
  simp only [flatten, List.filterMap_cons, Instruction.label?, List.filterMap_map,
    List.cons.injEq, true_and]
  exact List.filterMap_none _

namespace Function

/-- The body together with the label of the entry block where that is not written. -/
def entryBody (f : Function) : List Instruction :=
  if f.needsEntry then .label f.freshEntryLabel :: f.body else f.body

theorem exists_label_of_firstLabel? {f : Function} (labelled : f.firstLabel?.isSome = true)
    : ∃ name rest, f.body = .label name :: rest := by
  rw [firstLabel?] at labelled
  cases shape : f.body with
  | nil => simp [shape] at labelled
  | cons first rest =>
      cases first with
      | label name => exact ⟨name, rest, rfl⟩
      | operation op => simp [shape, Instruction.label?] at labelled

/-- A function that needs no entry block starts with a label. -/
theorem exists_label_of_not_needsEntry {f : Function} (starts : f.needsEntry = false)
    : ∃ name rest, f.body = .label name :: rest := by
  apply exists_label_of_firstLabel?
  cases first : f.firstLabel? with
  | some name => rfl
  | none => simp [needsEntry, first] at starts

/-- The blocks of a function, put together again, are its body with the entry label. -/
theorem flatMap_flatten_layout (f : Function)
    : f.layout.flatMap BasicBlock.flatten = f.entryBody := by
  rw [layout, entryBody]
  split
  · simpa [BasicBlock.flatten] using divide_flatten f.body
  · next starts =>
      obtain ⟨name, rest, shape⟩ := exists_label_of_not_needsEntry (by simpa using starts)
      simpa [shape, divide] using divide_flatten f.body

/-- The operations in the blocks are the operations of the function. -/
theorem flatMap_body_layout (f : Function)
    : f.layout.flatMap BasicBlock.body = f.operations := by
  have whole := congrArg (List.filterMap Instruction.operation?) f.flatMap_flatten_layout
  rw [List.filterMap_flatMap, funext BasicBlock.operations_flatten] at whole
  rw [whole, entryBody, operations]
  split <;> rfl

/-- The labels of the blocks are those the function declares, after that of an added entry. -/
theorem map_label_layout (f : Function)
    : f.layout.map BasicBlock.label
      = if f.needsEntry then f.freshEntryLabel :: f.labels else f.labels := by
  have whole := congrArg (List.filterMap Instruction.label?) f.flatMap_flatten_layout
  rw [List.filterMap_flatMap, funext BasicBlock.labels_flatten] at whole
  rw [List.map_eq_flatMap, whole, entryBody, labels]
  split <;> rfl

/-- A layout has no fault exactly when labels are distinct and only last operations end a block. -/
theorem layoutFault?_eq_none {seen : List String} {blocks : List BasicBlock}
    : layoutFault? seen blocks = none
      ↔ (blocks.map BasicBlock.label).Nodup
        ∧ ∀ block ∈ blocks, block.label ∉ seen
          ∧ ∀ op ∈ block.body.dropLast, op.isTerminator = false := by
  induction blocks generalizing seen with
  | nil => simp [layoutFault?]
  | cons block rest ih =>
      have ended : block.body.dropLast.any Operation.isTerminator = true
          ↔ ¬ ∀ op ∈ block.body.dropLast, op.isTerminator = false := by
        simp
      rw [layoutFault?]
      by_cases known : seen.contains block.label = true
      · rw [if_pos known]
        simp only [List.contains_iff_mem] at known
        simp [known]
      · rw [if_neg known]
        simp only [List.contains_iff_mem] at known
        by_cases good : ∀ op ∈ block.body.dropLast, op.isTerminator = false
        · rw [if_neg (mt ended.mp (not_not.mpr good)), ih]
          simp only [List.map_cons, List.nodup_cons, List.mem_map, not_exists, not_and,
            List.mem_cons, forall_eq_or_imp, not_or]
          constructor
          · intro later
            obtain ⟨unique, others⟩ := later
            exact ⟨⟨fun other member => (others other member).1.1, unique⟩, ⟨known, good⟩,
              fun other member => ⟨(others other member).1.2, (others other member).2⟩⟩
          · intro whole
            obtain ⟨⟨apart, unique⟩, -, others⟩ := whole
            exact ⟨unique, fun other member =>
              ⟨⟨apart other member, (others other member).1⟩, (others other member).2⟩⟩
        · rw [if_pos (ended.mpr good)]
          simp only [List.mem_cons, forall_eq_or_imp, reduceCtorEq, false_iff]
          exact fun fine => good fine.2.1.2

end Function

-----------------------------------------------------------------------------------------
-- Nothing behind what ends a block
-----------------------------------------------------------------------------------------

/-- The next instruction, if there is one, is a label. -/
def StartsBlock (body : List Instruction) : Prop :=
  body.head?.bind Instruction.operation? = none

/-- No operation follows one that ends its block. -/
def TerminatorsLast : List Instruction → Prop
  | [] => True
  | .label _ :: rest => TerminatorsLast rest
  | .operation op :: rest => (op.isTerminator = true → StartsBlock rest) ∧ TerminatorsLast rest

/-- Blocks put together start a block, or nothing. -/
theorem startsBlock_flatMap (blocks : List BasicBlock)
    : StartsBlock (blocks.flatMap BasicBlock.flatten) := by
  cases blocks with
  | nil => rfl
  | cons block rest => rfl

/-- In front of a place where a block starts, only the last operation may end its block. By
induction on the operations.
-/
theorem terminatorsLast_append (ops : List Operation) {tail : List Instruction}
    (starts : StartsBlock tail)
    : TerminatorsLast (ops.map .operation ++ tail)
      ↔ (∀ op ∈ ops.dropLast, op.isTerminator = false) ∧ TerminatorsLast tail := by
  induction ops with
  | nil => simp
  | cons op ops ih =>
      cases ops with
      | nil => simp [TerminatorsLast, starts]
      | cons next ops =>
          have blocked : ¬ StartsBlock ((next :: ops).map .operation ++ tail) := by
            simp [StartsBlock, Instruction.operation?]
          simp only [List.map_cons, List.cons_append, TerminatorsLast] at ih blocked ⊢
          simp [ih, blocked, and_assoc]

/-- Nothing stands behind what ends a block in blocks put together exactly when that holds in
each. By induction on the blocks.
-/
theorem terminatorsLast_flatMap {blocks : List BasicBlock}
    : TerminatorsLast (blocks.flatMap BasicBlock.flatten)
      ↔ ∀ block ∈ blocks, ∀ op ∈ block.body.dropLast, op.isTerminator = false := by
  induction blocks with
  | nil => simp [TerminatorsLast]
  | cons block blocks ih =>
      have apart := terminatorsLast_append block.body (startsBlock_flatMap blocks)
      simp only [List.flatMap_cons, BasicBlock.flatten, List.cons_append, TerminatorsLast,
        List.forall_mem_cons, ← ih, apart]

-----------------------------------------------------------------------------------------
-- Definitions
-----------------------------------------------------------------------------------------

namespace Function

/-- What a function defines, each with its declared type: parameters and the results of operations.
-/
def typedDefinitions (f : Function) : List (String × Option Ty) :=
  f.params.map (fun p => (p.name, some p.ty))
    ++ f.operations.filterMap fun op => op.dest.map fun var => (var, op.ty)

/-- The variables a function defines, as often as it defines them. -/
def definitions (f : Function) : List String :=
  f.params.map Param.name ++ f.operations.filterMap Operation.dest

/-- A variable is a parameter. -/
def IsParam (f : Function) (var : String) : Prop :=
  ∃ p ∈ f.params, p.name = var

/-- Leaving the types out of the definitions gives their variables. -/
theorem map_fst_typedDefinitions (f : Function)
    : f.typedDefinitions.map Prod.fst = f.definitions := by
  rw [typedDefinitions, definitions, List.map_append, List.map_map, List.map_filterMap]
  congr 2
  funext op
  cases op.dest <;> rfl

end Function

namespace Cfg

-----------------------------------------------------------------------------------------
-- Accepted functions
-----------------------------------------------------------------------------------------

/-- When a function is accepted, and with which graph. -/
theorem ofFunction?_eq_ok {f : Function} {allow : Bool} {g : Cfg}
    : ofFunction? f allow = .ok g
      ↔ f.body ≠ [] ∧ Function.layoutFault? [] f.layout = none
        ∧ g = ofBlocks f.name f.needsEntry f.layout f.layout_ne_nil
        ∧ (∀ b, branchFault? g.content b = none)
        ∧ (allow = true ∨ g.unreachableBlock? = none) := by
  rw [ofFunction?]
  by_cases empty : f.body = []
  · simp [empty]
  · rw [if_neg (by simpa using empty)]
    cases fault : Function.layoutFault? [] f.layout with
    | some fault => simp
    | none =>
        simp only [empty, not_false_eq_true, true_and, ne_eq]
        constructor
        · intro accepted
          split at accepted
          · simp at accepted
          · next sound =>
              rw [List.findSome?_eq_none_iff] at sound
              split at accepted
              · simp at accepted
              · next reached =>
                  obtain rfl := Except.ok.inj accepted
                  refine ⟨rfl, fun b => sound b (FlowGraph.mem_blocks _ b), ?_⟩
                  cases allow with
                  | true => exact .inl rfl
                  | false => exact .inr (by simpa using reached)
        · intro fits
          obtain ⟨rfl, sound, reached⟩ := fits
          have none : (ofBlocks f.name f.needsEntry f.layout f.layout_ne_nil).blocks.findSome?
              (branchFault? (ofBlocks f.name f.needsEntry f.layout f.layout_ne_nil).content)
              = none :=
            List.findSome?_eq_none_iff.mpr fun b _ => sound b
          rw [none]
          rcases reached with rfl | reached
          · rfl
          · cases allow with
            | true => rfl
            | false => simp [reached]

/-- The blocks of a graph in layout order. -/
def layout (g : Cfg) : List BasicBlock :=
  g.content.toList

/-- The layout lists the content block by block. -/
theorem map_content (g : Cfg) : g.blocks.map g.content.get = g.layout := by
  rw [layout, FlowGraph.blocks]
  apply List.ext_getElem
  · simp
  · intro i _ _
    simp [Vector.get]

/-- What is true of the graph of every accepted function. -/
structure Proper (g : Cfg) : Prop where
  label_injective : ∀ b c, g.label b = g.label c → b = c
  terminator_last : ∀ b, ∀ op ∈ (g.body b).dropLast, op.isTerminator = false
  succs_eq : ∀ b, g.succs b = targets g.content b
  no_fault : ∀ b, branchFault? g.content b = none

/-- Nothing stands behind an operation that ends its block. -/
theorem Proper.eq_nil_of_isTerminator {g : Cfg} (proper : g.Proper) {b : g.Block} {op : Operation}
    {rest : List Operation} (suffix : op :: rest <:+ g.body b) (ends : op.isTerminator = true)
    : rest = [] := by
  obtain ⟨front, whole⟩ := suffix
  cases rest with
  | nil => rfl
  | cons next more =>
      have inner : op ∈ (g.body b).dropLast := by
        rw [← whole, List.dropLast_append_cons]
        simp
      rw [proper.terminator_last b op inner] at ends
      cases ends

/-- Distinct positions in a layout with distinct labels have distinct labels. -/
theorem label_injective_of_nodup {g : Cfg} (unique : (g.layout.map BasicBlock.label).Nodup)
    (b c : g.Block) (same : g.label b = g.label c)
    : b = c := by
  rw [← map_content, List.map_map] at unique
  exact List.inj_on_of_nodup_map unique (g.mem_blocks b) (g.mem_blocks c) same

/-- The graph of an accepted function is proper. -/
theorem proper_of_ok {f : Function} {allow : Bool} {g : Cfg} (ok : ofFunction? f allow = .ok g)
    : g.Proper := by
  obtain ⟨-, fault, rfl, sound, -⟩ := ofFunction?_eq_ok.mp ok
  obtain ⟨unique, blocks⟩ := Function.layoutFault?_eq_none.mp fault
  refine {
    label_injective := label_injective_of_nodup unique
    terminator_last := ?_
    succs_eq := ?_
    no_fault := sound
  }
  · intro b op member
    exact (blocks _ (List.getElem_mem b.isLt)).2 op member
  · intro b
    exact Vector.getElem_ofFn b.isLt

/-- The graph of an accepted function has its blocks. -/
theorem layout_of_ok {f : Function} {allow : Bool} {g : Cfg} (ok : ofFunction? f allow = .ok g)
    : g.layout = f.layout := by
  obtain ⟨-, -, rfl, -, -⟩ := ofFunction?_eq_ok.mp ok
  rfl

end Cfg

end ThreeAddress
