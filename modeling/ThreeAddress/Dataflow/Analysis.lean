import ThreeAddress.Graph.FlowGraph

/-! Dataflow problems over a graph, and what it means for facts to solve one. -/

namespace ThreeAddress

/-- Whether facts flow along the edges or against them. -/
inductive Direction where
  | forward
  | backward
deriving DecidableEq, Repr

/-- A dataflow problem: where facts start, how they are combined where edges meet, and what each
block does to them.
-/
structure Analysis (g : FlowGraph) (D : Type) where
  direction : Direction
  /-- The fact at every place before anything is known. -/
  bottom : D
  /-- The fact that flows into the entry, or backward out of the blocks without successors. -/
  boundary : D
  /-- Combines the facts of all neighbours, in the order of the edges. -/
  merge : List D → D
  /-- The fact on the far side of a block. -/
  transfer : g.Block → D → D

/-- The facts at the top and at the bottom of every block. -/
structure Facts (g : FlowGraph) (D : Type) where
  top : Vector D g.size
  bottom : Vector D g.size
deriving DecidableEq

namespace Analysis

variable {g : FlowGraph} {D : Type}

/-- The blocks that facts flow into a block from. -/
def sources (a : Analysis g D) (b : g.Block) : List g.Block :=
  match a.direction with
  | .forward => g.preds b
  | .backward => g.succs b

/-- The blocks that facts flow to from a block. -/
def dependents (a : Analysis g D) (b : g.Block) : List g.Block :=
  match a.direction with
  | .forward => g.succs b
  | .backward => g.preds b

/-- The boundary fact flows into the block. -/
def onBoundary (a : Analysis g D) (b : g.Block) : Bool :=
  match a.direction with
  | .forward => b == g.entry
  | .backward => (g.succs b).isEmpty

/-- The fact a block receives, at its top or, backward, at its bottom. -/
def received (a : Analysis g D) (facts : Facts g D) (b : g.Block) : D :=
  match a.direction with
  | .forward => facts.top.get b
  | .backward => facts.bottom.get b

/-- The fact a block passes on, at its bottom or, backward, at its top. -/
def passedOn (a : Analysis g D) (facts : Facts g D) (b : g.Block) : D :=
  match a.direction with
  | .forward => facts.bottom.get b
  | .backward => facts.top.get b

/-- Replaces the facts that a block receives and passes on. -/
def record (a : Analysis g D) (facts : Facts g D) (b : g.Block) (received passedOn : D)
    : Facts g D :=
  match a.direction with
  | .forward => { top := updateAt facts.top b received, bottom := updateAt facts.bottom b passedOn }
  | .backward => { top := updateAt facts.top b passedOn, bottom := updateAt facts.bottom b received }

/-- The merge of what the sources of a block pass on, with the boundary fact last. -/
def merged (a : Analysis g D) (facts : Facts g D) (b : g.Block) : D :=
  a.merge ((a.sources b).map (a.passedOn facts)
    ++ if a.onBoundary b then [a.boundary] else [])

/-- Nothing is known anywhere. -/
def initial (a : Analysis g D) : Facts g D :=
  { top := Vector.replicate g.size a.bottom, bottom := Vector.replicate g.size a.bottom }

/-- One more round over every block would change nothing. -/
def isFixedPoint [DecidableEq D] (a : Analysis g D) (facts : Facts g D) : Bool :=
  g.blocks.all fun b =>
    let input := a.merged facts b
    a.received facts b == input && a.passedOn facts b == a.transfer b input

end Analysis

end ThreeAddress
