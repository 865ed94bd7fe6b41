import ThreeAddress.Simplify.DeadCode
import ThreeAddress.Simplify.ValueNumbering
import ThreeAddress.Ssa.Conversion

/-! Sequences of transformations applied to every function of a program. -/

namespace ThreeAddress

/-- A cleanup of the flat body of a function. -/
inductive Pass where
  | valueNumbering
  | deadCode
deriving DecidableEq, Repr

/-- One step of a pipeline: conversion to SSA form, passes run once in order, or passes repeated
until none of them changes the function.
-/
inductive Step where
  | ssa
  | once (passes : List Pass)
  | fixedPoint (passes : List Pass)
deriving DecidableEq, Repr

/-- Steps in order, with the settings they need. -/
structure Pipeline where
  steps : List Step := []
  /-- How often passes are repeated at most. -/
  maxIterations : Nat := 16
  ssa : SsaConfig := {}
deriving DecidableEq, Repr

/-- Value numbering and dead code elimination, repeated until nothing changes. -/
def cleanupSteps : List Step :=
  [.fixedPoint [.valueNumbering, .deadCode]]

/-- Runs a pass. The flag tells whether it changed the function. -/
def Pass.run (pass : Pass) (f : Function) : Function × Bool :=
  match pass with
  | valueNumbering => f.numberValues
  | deadCode => f.eliminateDead

/-- Runs passes in order. The flag tells whether any of them changed the function. -/
def runPasses (passes : List Pass) (f : Function) : Function × Bool :=
  passes.foldl
    (fun (f, changed) pass =>
      let (f, more) := pass.run f
      (f, changed || more))
    (f, false)

/-- Repeats passes until they change nothing, at most a number of times. -/
def repeatPasses (passes : List Pass) : Nat → Function → Function × Bool
  | 0, f => (f, false)
  | limit + 1, f =>
    let (next, changed) := runPasses passes f
    if changed then ((repeatPasses passes limit next).1, true) else (next, false)

namespace Pipeline

def runStep (pipeline : Pipeline) (f : Function) : Step → Except AnalysisError (Function × Bool)
  | .ssa => (f.toSsa pipeline.ssa).map fun (f, _) => (f, true)
  | .once passes => .ok (runPasses passes f)
  | .fixedPoint passes => .ok (repeatPasses passes pipeline.maxIterations f)

def runFunction (pipeline : Pipeline) (f : Function) : Except AnalysisError (Function × Bool) :=
  pipeline.steps.foldlM
    (fun (f, changed) step => do
      let (f, more) ← pipeline.runStep f step
      .ok (f, changed || more))
    (f, false)

/-- Runs all steps on every function. Functions do not depend on each other, and the first one
that fails makes the whole run fail.
-/
def run (pipeline : Pipeline) (program : Program) : Except AnalysisError (Program × Bool) := do
  let results ← program.functions.mapM pipeline.runFunction
  .ok ({ functions := results.map (·.1) }, results.any (·.2))

end Pipeline

end ThreeAddress
