import ThreeAddress.CommandLine.Arguments
import ThreeAddress.CommandLine.Findings
import ThreeAddress.Dataflow.LiveVariables
import ThreeAddress.Dataflow.ReachingDefinitions
import ThreeAddress.Json.Printer
import ThreeAddress.Program.Interchange
import ThreeAddress.Program.Listing
import ThreeAddress.Simplify.Pipeline
import ThreeAddress.Verification.Verifier

/-! What a call of the program prints and how it exits, as a function of its arguments and of the
text it reads.
-/

namespace ThreeAddress.CommandLine

/-- The exit code of a call and the text it writes to both outputs. -/
structure Outcome where
  code : Nat
  stdout : String
  stderr : String
deriving DecidableEq, Repr

/-- Why a call fails: what it has written to the standard output and, before the message, to the
error output, the message, and what caused it, each cause followed by what caused that.
-/
structure Failure where
  stdout : String := ""
  details : String := ""
  message : String
  causes : List String := []

/-- Why the input of a call cannot be had: it cannot be opened, or cannot be read once it is open.
-/
inductive InputFailure where
  | cannotOpen (reason : String)
  | cannotRead (reason : String)
deriving DecidableEq, Repr

/-- A text on a new line behind a mark. Its further lines start with as many blanks. -/
def hanging (mark text : String) : String :=
  let margin := String.ofList (List.replicate mark.length ' ')
  "\n" ++ mark ++ ("\n" ++ margin).intercalate (text.splitOn "\n")

/-- The causes of a failure below a heading. Several causes are numbered, one is only indented. -/
def causeText : List String → String
  | [] => ""
  | [cause] => "\n\nCaused by:" ++ hanging "    " cause
  | causes =>
    "\n\nCaused by:" ++ String.join (causes.zipIdx.map fun (cause, number) =>
      hanging ("    " ++ toString number ++ ": ") cause)

namespace Outcome

def success (stdout : String) : Outcome :=
  { code := 0, stdout, stderr := "" }

def usage : Outcome :=
  { code := 2, stdout := "", stderr := "error: invalid arguments\n" }

/-- A call that failed. -/
def failure (failure : Failure) : Outcome :=
  { code := 1
    stdout := failure.stdout
    stderr := failure.details ++ "Error: " ++ failure.message ++ causeText failure.causes ++ "\n" }

end Outcome

/-- A failure of an analysis or transformation without context. -/
def plainFailure (error : AnalysisError) : Failure :=
  { message := error.message }

/-- Applies an analysis to every function. What fails in the analysis itself is named with the
function; a function without control flow graph is not.
-/
def analyzeAll {B : Type} (inv : Invocation) (program : Program)
    (analyze : Function → Cfg → Except AnalysisError (List B))
    : Except Failure (List (FunctionFindings B)) :=
  program.functions.mapM fun f => do
    let g ← (Cfg.ofFunction? f inv.allowUnreachable).mapError fun e => plainFailure (.layout e)
    let name := f.name
    let blocks ← (analyze f g).mapError fun e =>
      { message := s!"analysis of `@{name}` failed", causes := [e.message] }
    .ok { name, blocks }

def printFindings {B : Type} (format : OutputFormat) (text : B → String) (toJson : B → Json)
    (findings : List (FunctionFindings B)) : String :=
  match format with
  | .json => (FunctionFindings.toJsonAll toJson findings).pretty ++ "\n"
  | .text => FunctionFindings.textAll text findings

def printProgram (format : OutputFormat) (program : Program) : String :=
  match format with
  | .json => program.pretty ++ "\n"
  | .text => program.listing

def runPipeline (pipeline : Pipeline) (program : Program) : Except Failure Program :=
  match pipeline.run program with
  | .ok (program, _) => .ok program
  | .error error => .error (plainFailure error)

def verifierConfig (inv : Invocation) (undefName : String := defaultUndefName)
    : VerifierConfig :=
  { VerifierConfig.forLevel .full with allowUnreachable := inv.allowUnreachable, undefName }

/-- Does what is asked for with a program. -/
def perform (inv : Invocation) (program : Program) : Except Failure String :=
  match inv.command with
  | .ssa config verify => do
    let program ← runPipeline { steps := [.ssa], ssa := config } program
    let report := (verifierConfig inv config.undefName).verifyProgram program
    if verify && report.hasErrors then
      .error
        { details := report.text, message := "SSA conversion produced an invalid program" }
    else .ok (printProgram inv.format program)
  | .numberValues => do
    let program ← runPipeline { steps := [.once [.valueNumbering]] } program
    .ok (printProgram inv.format program)
  | .eliminateDead => do
    let program ← runPipeline { steps := [.once [.deadCode]] } program
    .ok (printProgram inv.format program)
  | .optimize ssa maxIterations => do
    let steps := (if ssa then [.ssa] else []) ++ cleanupSteps
    let program ← runPipeline { steps, maxIterations } program
    .ok (printProgram inv.format program)
  | .reachingDefinitions kill => do
    let findings ← analyzeAll inv program fun f g => do
      let mode : ReachMode := if kill then .kill else .keep
      let solution ← g.solve (g.reachingDefinitions f.params mode) inv.visitsPerBlock
      .ok (blockFlows g solution.toFacts fun defs => defs.toList.map (Definition.labelled g))
    .ok (printFindings inv.format BlockFlow.text BlockFlow.toJson findings)
  | .liveVariables => do
    let findings ← analyzeAll inv program fun _ g => do
      let solution ← g.solve g.liveVariables inv.visitsPerBlock
      .ok (blockFlows g solution.toFacts fun names => names.toList)
    .ok (printFindings inv.format BlockFlow.text BlockFlow.toJson findings)
  | .dominators => do
    let findings ← analyzeAll inv program fun _ g => .ok (blockDominances g)
    .ok (printFindings inv.format BlockDominance.text BlockDominance.toJson findings)
  | .verify =>
    let report := (verifierConfig inv).verifyProgram program
    let stdout := match inv.format with
      | .json => report.toJson.pretty ++ "\n"
      | .text => report.text ++ "\n"
    if report.hasErrors then .error { stdout, message := "verification failed" } else .ok stdout

/-- The outcome of a call, given the text of its input or the reason why that cannot be read. -/
def Invocation.execute (inv : Invocation) (input : Except InputFailure String) : Outcome :=
  let source := match inv.input with
    | some path => s!"`{path}`"
    | none => "stdin"
  match input with
  | .error (.cannotOpen reason) =>
    .failure { message := "failed to open " ++ source, causes := [reason] }
  | .error (.cannotRead reason) =>
    .failure
      { message := "failed to load " ++ source, causes := ["malformed program: " ++ reason, reason] }
  | .ok text =>
    match Program.parse? text with
    | none => .failure { message := "failed to load " ++ source }
    | some program =>
      match perform inv program with
      | .ok stdout => .success stdout
      | .error failed => .failure failed

/-- The reason why a file that does not exist cannot be opened. -/
def noSuchFile : String :=
  "No such file or directory (os error 2)"

/-- The reason why a directory, which can be opened, cannot be read. -/
def isADirectory : String :=
  "Is a directory (os error 21)"

/-- The outcome of a call that reads the given standard input and files. -/
def run (arguments : List String) (stdin : String)
    (readFile : String → Except InputFailure String) : Outcome :=
  match Invocation.parse? arguments with
  | none => .usage
  | some inv => inv.execute (inv.input.elim (.ok stdin) readFile)

end ThreeAddress.CommandLine
