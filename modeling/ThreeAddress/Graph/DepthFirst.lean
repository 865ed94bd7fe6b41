import ThreeAddress.Graph.FlowGraph

/-! Depth-first traversal from the entry, with an explicit stack. A block is reported once all
blocks found from it have been.
-/

namespace ThreeAddress.FlowGraph

/-- Continues a traversal. The block on top of the stack is entered when it is new: its unvisited
successors go on top of it, the first one uppermost. When it comes to the top again it is
finished; a block may lie on the stack several times, and only the first to come back counts.
-/
def postOrderFrom (g : FlowGraph) (visited finished : BlockSet) : List g.Block → List g.Block
  | [] => []
  | b :: rest =>
    if visited.contains b then
      if finished.contains b then g.postOrderFrom visited finished rest
      else b :: g.postOrderFrom visited (finished.insert b) rest
    else
      let visited := visited.insert b
      let fresh := (g.succs b).filter fun s : g.Block => !visited.contains s
      g.postOrderFrom visited finished (fresh ++ b :: rest)
termination_by stack => (g.countOutside visited, stack.length)
decreasing_by
  · exact Prod.Lex.right _ (by simp)
  · exact Prod.Lex.right _ (by simp)
  · exact Prod.Lex.left _ _ (g.countOutside_insert_lt (by simp_all))

/-- The blocks reachable from the entry, each after the blocks found from it. -/
def postOrder (g : FlowGraph) : List g.Block :=
  g.postOrderFrom .empty .empty [g.entry]

/-- The blocks reachable from the entry in reverse post-order, the entry first. -/
def reversePostOrder (g : FlowGraph) : List g.Block :=
  g.postOrder.reverse

def reachable (g : FlowGraph) : BlockSet :=
  setOf g.postOrder

end ThreeAddress.FlowGraph
