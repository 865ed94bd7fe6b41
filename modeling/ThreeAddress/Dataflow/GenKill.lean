import ThreeAddress.ControlFlow.Cfg
import ThreeAddress.Dataflow.Analysis
import ThreeAddress.Dataflow.NameSet

/-! Problems given by tables: blocks that generate and kill names, and blocks that count. -/

namespace ThreeAddress

/-- How the sets of several neighbours are combined. -/
inductive MergeRule where
  | union
  | intersect
  | first
  | last
deriving DecidableEq, Repr

/-- Combines sets; no sets give the empty one. -/
def MergeRule.combine (rule : MergeRule) (sets : List NameSet) : NameSet :=
  match rule, sets with
  | _, [] => ∅
  | union, sets => unionAll sets
  | intersect, set :: rest => rest.foldl (· ∩ ·) set
  | first, set :: _ => set
  | last, set :: rest => rest.getLastD set

/-- A problem over sets of names where each block, by its label, removes some names and then
adds others.
-/
structure GenKill where
  direction : Direction := .forward
  rule : MergeRule
  bottom : NameSet := ∅
  boundary : NameSet := bottom
  gen : String → List String
  kill : String → List String

/-- The problem over the graph of a function. -/
def GenKill.analysis (problem : GenKill) (g : Cfg) : Analysis g.toFlowGraph NameSet :=
  { direction := problem.direction
    bottom := problem.bottom
    boundary := problem.boundary
    merge := problem.rule.combine
    transfer := fun b names =>
      (names.eraseMany (problem.kill (g.label b))).insertMany (problem.gen (g.label b)) }

/-- The problem of the greatest number of blocks, or of operations, on a way to a place. It has
no solution where a cycle adds to the number.
-/
def Cfg.depth (g : Cfg) (direction : Direction) (boundary : Nat) (countOperations : Bool)
    : Analysis g.toFlowGraph Nat :=
  { direction
    bottom := 0
    boundary
    merge := fun depths => depths.foldl max 0
    transfer := fun b depth => depth + if countOperations then (g.body b).length else 1 }

end ThreeAddress
