import ThreeAddress.ControlFlow.Layout
import ThreeAddress.Graph.Dominators

/-! The control flow graph of a function. Edges come from the operation that ends a block, or
from falling through to the next block in layout order when there is none.
-/

namespace ThreeAddress

/-- The blocks of a function with the edges between them. -/
structure Cfg extends FlowGraph where
  /-- The name of the function. -/
  func : String
  /-- Label and operations of each block. -/
  content : Vector BasicBlock size
  /-- The entry block is not written in the function. -/
  hasAddedEntry : Bool

namespace Cfg

def label (g : Cfg) (b : g.Block) : String :=
  (g.content.get b).label

def body (g : Cfg) (b : g.Block) : List Operation :=
  (g.content.get b).body

/-- The block with a label among blocks in layout order. -/
def findLabel? {n : Nat} (content : Vector BasicBlock n) (label : String) : Option (Fin n) :=
  (List.finRange n).find? fun b => (content.get b).label == label

/-- The block with a label. -/
def blockOf? (g : Cfg) (label : String) : Option g.Block :=
  findLabel? g.content label

/-- The next block in layout order, if there is one. -/
def next {n : Nat} (b : Fin n) : List (Fin n) :=
  if h : b.val + 1 < n then [⟨b.val + 1, h⟩] else []

/-- Where control may go after a block: to the targets of a branch, each listed once; nowhere
after a return; and otherwise on to the next block.
-/
def targets {n : Nat} (content : Vector BasicBlock n) (b : Fin n) : List (Fin n) :=
  match (content.get b).body.getLast? with
  | some op =>
    match op.opcode with
    | .jmp | .br => (op.labels.filterMap (findLabel? content)).eraseDups
    | .ret => []
    | _ => next b
  | none => next b

/-- How many targets a branch has. -/
def branchWidth? : Opcode → Option Nat
  | .jmp => some 1
  | .br => some 2
  | _ => none

/-- What is wrong with the branch at the end of a block: the number of its targets, or one that
no block is labelled with.
-/
def branchFault? {n : Nat} (content : Vector BasicBlock n) (b : Fin n) : Option LayoutFault :=
  let block := content.get b
  block.body.getLast?.bind fun op =>
    (branchWidth? op.opcode).bind fun expected =>
      if op.labels.length = expected then
        (op.labels.find? fun target => (findLabel? content target).isNone).map
          (.undeclaredLabel block.label)
      else some (.branchArity block.label op.opcode expected op.labels.length)

/-- The graph of a list of blocks. -/
def ofBlocks (func : String) (hasAddedEntry : Bool) (blocks : List BasicBlock)
    (nonempty : blocks ≠ []) : Cfg :=
  let content : Vector BasicBlock blocks.length := ⟨blocks.toArray, by simp⟩
  { size := blocks.length
    size_pos := List.length_pos_iff.mpr nonempty
    edges := Vector.ofFn (targets content)
    func
    content
    hasAddedEntry }

/-- The first block in layout order that the entry does not reach. -/
def unreachableBlock? (g : Cfg) : Option g.Block :=
  let reachable := g.reachable
  g.blocks.find? fun b => !reachable.contains b

/-- The control flow graph of a function. Faults are looked for in the layout first, then in the
branches, and then among the blocks that are not reachable, unless these are allowed.
-/
def ofFunction? (f : Function) (allowUnreachable : Bool := false) : Except LayoutError Cfg :=
  let fail (fault : LayoutFault) : Except LayoutError Cfg := .error { func := f.name, fault }
  if f.body.isEmpty then fail .noInstructions
  else match Function.layoutFault? [] f.layout with
    | some fault => fail fault
    | none =>
      let g := ofBlocks f.name f.needsEntry f.layout f.layout_ne_nil
      match g.blocks.findSome? (branchFault? g.content) with
      | some fault => fail fault
      | none =>
        match if allowUnreachable then none else g.unreachableBlock? with
        | some b => fail (.unreachable (g.label b))
        | none => .ok g

/-- A flat body with the labels of the graph and the given operations. -/
def assemble (g : Cfg) (bodyOf : g.Block → List Operation) : List Instruction :=
  g.blocks.flatMap fun b => { label := g.label b, body := bodyOf b : BasicBlock }.flatten

/-- The flat body the graph stands for. -/
def toBody (g : Cfg) : List Instruction :=
  g.assemble g.body

/-- The dominators of a block, or an error for a block that is not reachable. -/
def dominators? (g : Cfg) (tree : DomTree g.toFlowGraph) (b : g.Block)
    : Except AnalysisError (List g.Block) :=
  if tree.isReachable b then .ok (tree.dominators b)
  else .error (.dominanceUndefined g.func (g.label b))

/-- The immediate dominator of a block, which the entry does not have, or an error for a block
that is not reachable.
-/
def immediateDominator? (g : Cfg) (tree : DomTree g.toFlowGraph) (b : g.Block)
    : Except AnalysisError (Option g.Block) :=
  if tree.isReachable b then .ok (tree.idom? b)
  else .error (.dominanceUndefined g.func (g.label b))

end Cfg

/-- Writes the label of an added entry block into the function, and gives its graph. -/
def Function.split (f : Function) (allowUnreachable : Bool := false)
    : Except LayoutError (Function × Cfg) :=
  (Cfg.ofFunction? f allowUnreachable).map fun g =>
    if g.hasAddedEntry then
      ({ f with body := .label (g.label g.entry) :: f.body }, g)
    else (f, g)

end ThreeAddress
