import ThreeAddress.Graph.Dominators

/-! Dominance frontiers: the blocks just beyond those that a block dominates. -/

namespace ThreeAddress.DomTree

variable {g : FlowGraph}

/-- The blocks passed on the way up from a predecessor of a block, ending before the immediate
dominator of that block.
-/
def passed (tree : DomTree g) (pred b : g.Block) : List g.Block :=
  (tree.ancestors pred).takeWhile fun a => some a != tree.idom? b

/-- Each pair of a block and a block in its frontier. Only blocks with several predecessors are
in a frontier, and only reachable predecessors count.
-/
def frontierPairs (tree : DomTree g) : List (g.Block × g.Block) :=
  tree.order.flatMap fun b =>
    if (g.preds b).length < 2 then []
    else
      ((g.preds b).filter tree.isReachable).flatMap fun pred =>
        (tree.passed pred b).map fun a => (a, b)

def frontiers (tree : DomTree g) : BlockTable g :=
  tree.frontierPairs.foldl
    (fun table (a, b) => updateAt table a ((table.get a).insert b))
    (Vector.replicate g.size .empty)

end ThreeAddress.DomTree
