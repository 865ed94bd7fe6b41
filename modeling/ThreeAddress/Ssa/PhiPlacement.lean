import ThreeAddress.Graph.Frontier
import ThreeAddress.Ssa.Globals

/-! Where phis go: into every block of the iterated dominance frontier of the blocks that define
a variable.
-/

namespace ThreeAddress

namespace FlowGraph

/-- Of the blocks outside a set, those in another are no longer outside the union. -/
theorem countOutside_union (g : FlowGraph) (set more : BlockSet)
    : g.countOutside (set.union more) + (g.members (more.diff set)).length
      = g.countOutside set := by
  rw [countOutside, countOutside, members, ← List.countP_eq_length_filter]
  induction g.blocks with
  | nil => rfl
  | cons b rest ih =>
    cases hs : set.contains b <;> cases hm : more.contains b <;> simp_all <;> omega

/-- Continues to close a set of blocks under taking frontiers. Each block of the worklist brings
in its frontier; those of it that were never on the worklist join it.
-/
def closeUnder (g : FlowGraph) (frontiers : BlockTable g) (found queued : BlockSet)
    : List g.Block → BlockSet
  | [] => found
  | b :: rest =>
    let fresh := (frontiers.get b).diff found
    g.closeUnder frontiers (found.union fresh) (queued.union fresh)
      ((g.members (fresh.diff queued)).reverse ++ rest)
termination_by worklist => g.countOutside queued + worklist.length
decreasing_by
  have := g.countOutside_union queued ((frontiers.get b).diff found)
  simp only [List.length_append, List.length_reverse, List.length_cons]
  omega

def iteratedFrontier (g : FlowGraph) (frontiers : BlockTable g) (start : BlockSet) : BlockSet :=
  g.closeUnder frontiers .empty start (g.members start).reverse

end FlowGraph

/-- For each global variable that has a definition, the blocks that get a phi for it. -/
abbrev Placement := List (String × BlockSet)

namespace Globals

variable {g : Cfg}

/-- Places the phis of all global variables. -/
def placement (globals : Globals g) (frontiers : BlockTable g.toFlowGraph) : Placement :=
  (globals.names.filter globals.isDefined).map fun var =>
    (var, g.iteratedFrontier frontiers (globals.defBlocks var))

end Globals

namespace Placement

/-- The variables with a phi in a block, in the order of the phis. -/
def varsAt (placement : Placement) (b : BlockId) : List String :=
  (placement.filter fun entry => entry.2.contains b).map (·.1)

/-- How many phis there are in a graph. -/
def phiCount (placement : Placement) (g : FlowGraph) : Nat :=
  (placement.flatMap fun entry => g.members entry.2).length

end Placement

namespace Globals

variable {g : Cfg}

/-- A phi before renaming: one slot for each edge into the block, all for the same variable. -/
def blankPhi (globals : Globals g) (b : g.Block) (var : String) : Operation :=
  { opcode := .phi
    dest := var
    ty := globals.tyOf? var
    args := (g.preds b).map fun _ => var
    labels := (g.preds b).map g.label }

/-- The operations of a block with its phis in front. -/
def bodyWithPhis (globals : Globals g) (placement : Placement) (b : g.Block) : List Operation :=
  (placement.varsAt b).map (globals.blankPhi b) ++ g.body b

end Globals

end ThreeAddress
