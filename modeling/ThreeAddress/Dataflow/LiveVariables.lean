import ThreeAddress.ControlFlow.Cfg
import ThreeAddress.Dataflow.Analysis
import ThreeAddress.Dataflow.NameSet

/-! Which variables may still be used. The arguments of a phi are used at the end of the blocks
they come from, not in the block of the phi.
-/

namespace ThreeAddress

/-- The variables live before an operation, from those live after it. -/
def Operation.liveBefore (op : Operation) (live : NameSet) : NameSet :=
  let live := match op.dest with
    | some var => live.erase var
    | none => live
  if op.isPhi then live else live.insertMany op.args

namespace Cfg

/-- The arguments that phis of the successors take from a block. -/
def edgeUses (g : Cfg) (b : g.Block) : List String :=
  (g.succs b).flatMap fun s =>
    (g.content.get s).leadingPhis.flatMap fun phi =>
      (phi.slots.filter fun slot => slot.2 == g.label b).map (·.1)

/-- The problem of the variables that are used along some path before they are defined again. -/
def liveVariables (g : Cfg) : Analysis g.toFlowGraph NameSet :=
  { direction := .backward
    bottom := ∅
    boundary := ∅
    merge := unionAll
    transfer := fun b live =>
      (g.body b).foldr Operation.liveBefore (live.insertMany (g.edgeUses b)) }

end Cfg

end ThreeAddress
