import ThreeAddress.CommandLine.Arguments
import ThreeAddress.CommandLine.Findings
import ThreeAddress.CommandLine.Run
import ThreeAddress.ControlFlow.Cfg
import ThreeAddress.ControlFlow.Layout
import ThreeAddress.Dataflow.Analysis
import ThreeAddress.Dataflow.GenKill
import ThreeAddress.Dataflow.LiveVariables
import ThreeAddress.Dataflow.NameSet
import ThreeAddress.Dataflow.ReachingDefinitions
import ThreeAddress.Dataflow.Solver
import ThreeAddress.Failure
import ThreeAddress.Graph.BlockSet
import ThreeAddress.Graph.DepthFirst
import ThreeAddress.Graph.Dominators
import ThreeAddress.Graph.FlowGraph
import ThreeAddress.Graph.Frontier
import ThreeAddress.Json.Numeral
import ThreeAddress.Json.Printer
import ThreeAddress.Json.Reader
import ThreeAddress.Json.Record
import ThreeAddress.Json.Value
import ThreeAddress.Main
import ThreeAddress.Number.Decimal
import ThreeAddress.Number.Double
import ThreeAddress.Program.Construction
import ThreeAddress.Program.Function
import ThreeAddress.Program.Instruction
import ThreeAddress.Program.Interchange
import ThreeAddress.Program.Listing
import ThreeAddress.Program.Literal
import ThreeAddress.Program.Opcode
import ThreeAddress.Program.Ty
import ThreeAddress.Proofs.ControlFlow.Assembly
import ThreeAddress.Proofs.ControlFlow.Blocks
import ThreeAddress.Proofs.ControlFlow.EdgeOrder
import ThreeAddress.Proofs.ControlFlow.Edges
import ThreeAddress.Proofs.ControlFlow.Rebuilding
import ThreeAddress.Proofs.ControlFlow.Splitting
import ThreeAddress.Proofs.ControlFlow.WellFormed
import ThreeAddress.Proofs.Dataflow.AlongWalks
import ThreeAddress.Proofs.Dataflow.LeastSolutions
import ThreeAddress.Proofs.Dataflow.MaybeDefined
import ThreeAddress.Proofs.Dataflow.ReachingDefinitions
import ThreeAddress.Proofs.Dataflow.Rounds
import ThreeAddress.Proofs.Dataflow.Solving
import ThreeAddress.Proofs.Dataflow.UnionProblems
import ThreeAddress.Proofs.Dataflow.Ways
import ThreeAddress.Proofs.Execution.Arithmetic
import ThreeAddress.Proofs.Execution.Conversion
import ThreeAddress.Proofs.Execution.ConversionStep
import ThreeAddress.Proofs.Execution.DeadCode
import ThreeAddress.Proofs.Execution.Machine
import ThreeAddress.Proofs.Execution.Mirroring
import ThreeAddress.Proofs.Execution.RemovalStep
import ThreeAddress.Proofs.Execution.ValueNumbering
import ThreeAddress.Proofs.Graph.DominatorSets
import ThreeAddress.Proofs.Graph.DominatorTree
import ThreeAddress.Proofs.Graph.Frontiers
import ThreeAddress.Proofs.Graph.IteratedFrontier
import ThreeAddress.Proofs.Graph.Joins
import ThreeAddress.Proofs.Graph.RecursiveSearch
import ThreeAddress.Proofs.Graph.Traversal
import ThreeAddress.Proofs.Graph.Walks
import ThreeAddress.Proofs.Json.Numerals
import ThreeAddress.Proofs.Json.Records
import ThreeAddress.Proofs.Json.Strings
import ThreeAddress.Proofs.Json.Tokens
import ThreeAddress.Proofs.Json.Values
import ThreeAddress.Proofs.Number.Magnitudes
import ThreeAddress.Proofs.Program.Interchange
import ThreeAddress.Proofs.Simplify.Cleanup
import ThreeAddress.Proofs.Simplify.DeadTails
import ThreeAddress.Proofs.Simplify.FixedPoints
import ThreeAddress.Proofs.Simplify.Folding
import ThreeAddress.Proofs.Simplify.Readings
import ThreeAddress.Proofs.Simplify.Removal
import ThreeAddress.Proofs.Simplify.Renumbering
import ThreeAddress.Proofs.Simplify.Rewriting
import ThreeAddress.Proofs.Simplify.Tables
import ThreeAddress.Proofs.Simplify.TidyTables
import ThreeAddress.Proofs.Simplify.Typing
import ThreeAddress.Proofs.Simplify.ValueTable
import ThreeAddress.Proofs.Ssa.Converted
import ThreeAddress.Proofs.Ssa.ConvertedGraph
import ThreeAddress.Proofs.Ssa.Insertion
import ThreeAddress.Proofs.Ssa.IntroducedNames
import ThreeAddress.Proofs.Ssa.Joins
import ThreeAddress.Proofs.Ssa.Names
import ThreeAddress.Proofs.Ssa.Numbering
import ThreeAddress.Proofs.Ssa.Origins
import ThreeAddress.Proofs.Ssa.PhiInsertion
import ThreeAddress.Proofs.Ssa.Placement
import ThreeAddress.Proofs.Ssa.Positions
import ThreeAddress.Proofs.Ssa.Renaming
import ThreeAddress.Proofs.Ssa.ScopedStacks
import ThreeAddress.Proofs.Ssa.Scopes
import ThreeAddress.Proofs.Ssa.TreeWalk
import ThreeAddress.Proofs.Ssa.UnreachedUses
import ThreeAddress.Proofs.Ssa.UseDefChains
import ThreeAddress.Proofs.Ssa.VersionCalls
import ThreeAddress.Proofs.Ssa.Versions
import ThreeAddress.Proofs.Ssa.Visits
import ThreeAddress.Proofs.Verification.Acceptance
import ThreeAddress.Proofs.Verification.CleanedFunctions
import ThreeAddress.Proofs.Verification.ConvertedFunctions
import ThreeAddress.Proofs.Verification.Findings
import ThreeAddress.Proofs.Verification.Limits
import ThreeAddress.Proofs.Verification.Reports
import ThreeAddress.Proofs.Verification.Scoping
import ThreeAddress.Proofs.Verification.Severities
import ThreeAddress.Proofs.Verification.ValidSsa
import ThreeAddress.Simplify.DeadCode
import ThreeAddress.Simplify.Folding
import ThreeAddress.Simplify.Pipeline
import ThreeAddress.Simplify.ValueNumbering
import ThreeAddress.Ssa.Conversion
import ThreeAddress.Ssa.Globals
import ThreeAddress.Ssa.PhiPlacement
import ThreeAddress.Ssa.Versions
import ThreeAddress.Verification.Diagnostic
import ThreeAddress.Verification.Report
import ThreeAddress.Verification.Verifier
