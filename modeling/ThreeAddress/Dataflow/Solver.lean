import ThreeAddress.ControlFlow.Cfg
import ThreeAddress.Dataflow.Analysis

/-! Solving dataflow problems with a queue of the blocks whose facts may be out of date. -/

namespace ThreeAddress

/-- The facts a solver ended with and how many block visits it took. -/
structure Solution (g : FlowGraph) (D : Type) extends Facts g D where
  visits : Nat

/-- Puts blocks at the end of a queue, each one only if it is not waiting already. -/
def enqueue {α : Type} [DecidableEq α] (queue blocks : List α) : List α :=
  blocks.foldl (fun queue b => if queue.contains b then queue else queue ++ [b]) queue

namespace Analysis

variable {g : FlowGraph} {D : Type} [DecidableEq D]

/-- The order of the first visits: reverse post-order and then the blocks that are not reachable,
all of it reversed for a backward problem.
-/
def firstVisits (a : Analysis g D) : List g.Block :=
  let reachable := g.reachable
  let order := g.reversePostOrder ++ g.blocks.filter fun b : g.Block => !reachable.contains b
  match a.direction with
  | .forward => order
  | .backward => order.reverse

def visit (a : Analysis g D) (solution : Solution g D) (b : g.Block) : Solution g D :=
  let input := a.merged solution.toFacts b
  { toFacts := a.record solution.toFacts b input (a.transfer b input)
    visits := solution.visits + 1 }

/-- Visits the blocks of a queue in turn. When a visit changes what a block passes on, the blocks
that depend on it join the queue. The block whose visit would exceed the budget is an error.
-/
def run (a : Analysis g D) : Nat → Solution g D → List g.Block → Except g.Block (Solution g D)
  | _, solution, [] => .ok solution
  | 0, _, b :: _ => .error b
  | budget + 1, solution, b :: rest =>
    let next := a.visit solution b
    let changed := a.passedOn next.toFacts b != a.passedOn solution.toFacts b
    a.run budget next (if changed then enqueue rest (a.dependents b) else rest)

/-- Solves a problem within a number of visits. -/
def solveWithin (a : Analysis g D) (budget : Nat) : Except g.Block (Solution g D) :=
  a.run budget { toFacts := a.initial, visits := 0 } a.firstVisits

end Analysis

/-- How often a block is visited on average before a problem counts as having no solution. -/
def defaultVisitLimit : Nat := 256

/-- Solves a problem over the graph of a function. -/
def Cfg.solve {D : Type} [DecidableEq D] (g : Cfg) (a : Analysis g.toFlowGraph D)
    (visitsPerBlock : Nat := defaultVisitLimit)
    : Except AnalysisError (Solution g.toFlowGraph D) :=
  let budget := visitsPerBlock * g.size
  (a.solveWithin budget).mapError fun b => .nonMonotone g.func (g.label b) budget

end ThreeAddress
