import ThreeAddress.Graph.DepthFirst

/-! Dominance. Dominator sets are found by intersection over predecessors until nothing changes;
immediate dominators, the dominator tree and the ways up the tree are read off the sets.
-/

namespace ThreeAddress

/-- A set of blocks for every block of a graph. -/
abbrev BlockTable (g : FlowGraph) := Vector BlockSet g.size

/-- The dominators of every block reachable from the entry of a graph. -/
structure DomTree (g : FlowGraph) where
  /-- The reachable blocks in reverse post-order. -/
  order : List g.Block
  /-- The set of reachable blocks. -/
  reachable : BlockSet
  /-- The blocks dominating each block; nothing for blocks that are not reachable. -/
  doms : BlockTable g
  /-- The closest strict dominator of each block that has one. -/
  idoms : Vector (Option g.Block) g.size

namespace FlowGraph

/-- The sets to start from: every reachable block is dominated by all reachable blocks, except
that the entry is dominated by itself alone.
-/
def initialDoms (g : FlowGraph) : BlockTable g :=
  let reachable := g.reachable
  Vector.ofFn fun b : g.Block =>
    if b = g.entry then BlockSet.empty.insert b
    else if reachable.contains b then reachable
    else .empty

/-- The blocks common to the sets of all reachable predecessors of a block. -/
def meetOverPreds (g : FlowGraph) (reachable : BlockSet) (doms : BlockTable g) (b : g.Block)
    : BlockSet :=
  match (g.preds b).filter fun p : g.Block => reachable.contains p with
  | [] => .empty
  | first :: rest => rest.foldl (fun set p => set.inter (doms.get p)) (doms.get first)

/-- Recomputes the set of one block from those of its predecessors. -/
def refineAt (g : FlowGraph) (reachable : BlockSet) (doms : BlockTable g) (b : g.Block)
    : BlockTable g :=
  updateAt doms b ((g.meetOverPreds reachable doms b).insert b)

/-- Recomputes the set of every block in an order. -/
def sweep (g : FlowGraph) (reachable : BlockSet) (order : List g.Block) (doms : BlockTable g)
    : BlockTable g :=
  order.foldl (g.refineAt reachable) doms

/-- Sweeps until nothing changes, at most a number of times. -/
def sweepUntilStable (g : FlowGraph) (reachable : BlockSet) (order : List g.Block)
    : Nat → BlockTable g → BlockTable g
  | 0, doms => doms
  | fuel + 1, doms =>
    let next := g.sweep reachable order doms
    if next = doms then doms else g.sweepUntilStable reachable order fuel next

/-- The dominators of every reachable block. Every sweep that changes something removes a member
from one of `size` sets of at most `size` members, which bounds the number of sweeps.
-/
def dominatorSets (g : FlowGraph) : BlockTable g :=
  g.sweepUntilStable g.reachable g.reversePostOrder.tail (g.size * g.size + 1) g.initialDoms

/-- The strict dominator of a block that all its strict dominators dominate. -/
def closestStrictDominator (g : FlowGraph) (doms : BlockTable g) (b : g.Block)
    : Option g.Block :=
  let strict := (doms.get b).erase b
  (g.members strict).find? fun candidate => strict.isSubset (doms.get candidate)

def domTree (g : FlowGraph) : DomTree g :=
  let doms := g.dominatorSets
  { order := g.reversePostOrder
    reachable := g.reachable
    doms
    idoms := Vector.ofFn (g.closestStrictDominator doms) }

end FlowGraph

namespace DomTree

variable {g : FlowGraph}

def isReachable (tree : DomTree g) (b : g.Block) : Bool :=
  tree.reachable.contains b

/-- Every path from the entry to the second block, which is reachable, passes through the
first.
-/
def dominates (tree : DomTree g) (a b : g.Block) : Bool :=
  tree.isReachable b && (tree.doms.get b).contains a

/-- The first block dominates the second and is another block. -/
def strictlyDominates (tree : DomTree g) (a b : g.Block) : Bool :=
  a != b && tree.dominates a b

/-- The dominators of a block in layout order; none for a block that is not reachable. -/
def dominators (tree : DomTree g) (b : g.Block) : List g.Block :=
  g.members (tree.doms.get b)

/-- The closest strict dominator of a block. The entry and blocks that are not reachable have
none.
-/
def idom? (tree : DomTree g) (b : g.Block) : Option g.Block :=
  tree.idoms.get b

/-- The blocks whose immediate dominator is the given one, in layout order. -/
def children (tree : DomTree g) (b : g.Block) : List g.Block :=
  g.blocks.filter fun child => tree.idom? child == some b

/-- The way up the tree from a block, at most a number of steps. -/
def chain (tree : DomTree g) : Nat → g.Block → List g.Block
  | 0, b => [b]
  | fuel + 1, b =>
    b :: match tree.idom? b with
      | some parent => tree.chain fuel parent
      | none => []

/-- A block and all its ancestors, up to the root. No way up is longer than the number of
blocks.
-/
def ancestors (tree : DomTree g) (b : g.Block) : List g.Block :=
  tree.chain g.size b

end DomTree

end ThreeAddress
