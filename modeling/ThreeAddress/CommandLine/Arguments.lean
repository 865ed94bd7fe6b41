import ThreeAddress.Ssa.Conversion
import ThreeAddress.Dataflow.Solver

/-! Command line arguments: a subcommand, with options that belong to it after its name and
options common to all subcommands before or after it.
-/

namespace ThreeAddress.CommandLine

/-- An option: its long name, a letter for it, and whether a value follows. -/
structure OptionSpec where
  long : String
  letter : Option Char := none
  takesValue : Bool := false
deriving DecidableEq, Repr

/-- An option that was given, with its value. -/
abbrev Given := String × String

/-- The long name and the value attached to it after an equals sign. -/
def splitLong (text : List Char) : String × Option String :=
  match text.dropWhile (· != '=') with
  | _ :: value => (String.ofList (text.takeWhile (· != '=')), some (String.ofList value))
  | [] => (String.ofList text, none)

/-- The value attached to an option letter, with or without an equals sign. -/
def attachedToLetter : List Char → Option String
  | [] => none
  | '=' :: value => some (String.ofList value)
  | value => some (String.ofList value)

def isValue (argument : String) : Bool :=
  argument == "-" || argument.toList.head? != some '-'

/-- The value of an option: the attached one, or the next argument. The result has the arguments
that are left.
-/
def valueOf? (spec : OptionSpec) (attached : Option String) (rest : List String)
    : Option (Given × List String) :=
  match spec.takesValue, attached, rest with
  | false, none, rest => some ((spec.long, ""), rest)
  | false, some _, _ => none
  | true, some value, rest => some ((spec.long, value), rest)
  | true, none, value :: rest => if isValue value then some ((spec.long, value), rest) else none
  | true, none, [] => none

/-- Reads the option an argument starts. -/
def option? (specs : List OptionSpec) (argument : String) (rest : List String)
    : Option (Given × List String) :=
  match argument.toList with
  | '-' :: '-' :: text => do
    let (name, attached) := splitLong text
    let spec ← specs.find? fun spec => spec.long == name
    valueOf? spec attached rest
  | '-' :: letter :: text => do
    let spec ← specs.find? fun spec => spec.letter == some letter
    valueOf? spec (attachedToLetter text) rest
  | _ => none

/-- Reads options up to an argument that is none. Each option takes at least one argument. -/
def optionsWithin (specs : List OptionSpec)
    : Nat → List String → Option (List Given × List String)
  | _, [] => some ([], [])
  | 0, argument :: rest => some ([], argument :: rest)
  | fuel + 1, argument :: rest =>
    if isValue argument then some ([], argument :: rest)
    else if argument == "--" then some ([], argument :: rest)
    else do
      let (given, rest) ← option? specs argument rest
      let (more, rest) ← optionsWithin specs fuel rest
      if more.any (·.1 == given.1) then none else some (given :: more, rest)

/-- Reads the options at the start of the arguments, each given at most once. -/
def options? (specs : List OptionSpec) (arguments : List String)
    : Option (List Given × List String) :=
  optionsWithin specs arguments.length arguments

/-- The form of the output. -/
inductive OutputFormat where
  | json
  | text
deriving DecidableEq, Repr

def OutputFormat.ofName? : String → Option OutputFormat
  | "json" => some json
  | "text" => some text
  | _ => none

/-- What to do with the program. -/
inductive Command where
  | ssa (config : SsaConfig) (verify : Bool)
  | numberValues
  | eliminateDead
  | optimize (ssa : Bool) (maxIterations : Nat)
  | reachingDefinitions (kill : Bool)
  | liveVariables
  | dominators
  | verify
deriving DecidableEq, Repr

/-- What the arguments ask for. -/
structure Invocation where
  /-- The file to read; none for the standard input. -/
  input : Option String := none
  format : OutputFormat := .json
  allowUnreachable : Bool := false
  visitsPerBlock : Nat := defaultVisitLimit
  command : Command
deriving DecidableEq, Repr

/-- The options that may stand before or after the subcommand. -/
def commonOptions : List OptionSpec :=
  [{ long := "input", letter := some 'i', takesValue := true },
    { long := "format", letter := some 'f', takesValue := true },
    { long := "allow-unreachable" },
    { long := "max-visits", takesValue := true }]

/-- The options of a subcommand, if there is one of that name. -/
def commandOptions? : String → Option (List OptionSpec)
  | "ssa" =>
    some [{ long := "rename-locals" }, { long := "undef-name", takesValue := true },
      { long := "verify" }]
  | "opt" => some [{ long := "ssa" }, { long := "max-iterations", takesValue := true }]
  | "reaching-defs" => some [{ long := "kill" }]
  | "lvn" | "dce" | "live-vars" | "dominators" | "verify" => some []
  | _ => none

/-- The number a value stands for: digits after an optional plus sign, within 64 bits. -/
def number? (value : String) : Option Nat :=
  let digits := match value.toList with
    | '+' :: rest => rest
    | rest => rest
  if digits.isEmpty || !digits.all Char.isDigit then none
  else
    let n := digits.foldl (fun n c => 10 * n + (c.toNat - '0'.toNat)) 0
    if n < UInt64.size then some n else none

/-- Reads the value of an option, or takes the default when the option is not given. -/
def setting? {α : Type} (given : List Given) (name : String) (default : α)
    (read? : String → Option α) : Option α :=
  match given.lookup name with
  | some value => read? value
  | none => some default

def has (given : List Given) (name : String) : Bool :=
  given.any (·.1 == name)

def command? (name : String) (given : List Given) : Option Command :=
  match name with
  | "ssa" => do
    let undefName ← setting? given "undef-name" defaultUndefName some
    some (.ssa { renameLocals := has given "rename-locals", undefName } (has given "verify"))
  | "lvn" => some .numberValues
  | "dce" => some .eliminateDead
  | "opt" => do
    let maxIterations ← setting? given "max-iterations" 16 number?
    some (.optimize (has given "ssa") maxIterations)
  | "reaching-defs" => some (.reachingDefinitions (has given "kill"))
  | "live-vars" => some .liveVariables
  | "dominators" => some .dominators
  | "verify" => some .verify
  | _ => none

/-- The path consists of a dash alone: what follows it after a slash is empty or a dot, which leads
nowhere else.
-/
def isDash (path : String) : Bool :=
  match path.splitOn "/" with
  | first :: rest => first == "-" && rest.all fun part => part.isEmpty || part == "."
  | [] => false

/-- The file an input option names. An empty name is refused, and a dash is the standard input. -/
def inputFile? (path : String) : Option (Option String) :=
  if path.isEmpty then none
  else if isDash path then some none
  else some (some path)

/-- Reads the settings common to all subcommands. -/
def invocation? (given : List Given) (command : Command) : Option Invocation := do
  let input ← setting? given "input" none inputFile?
  let format ← setting? given "format" .json OutputFormat.ofName?
  let visitsPerBlock ← setting? given "max-visits" defaultVisitLimit number?
  some { input, format, allowUnreachable := has given "allow-unreachable", visitsPerBlock, command }

/-- What the arguments ask for, or nothing if they are not well formed. An option given both
before and after the subcommand counts as given after it, but its first value must be one that
can be read too.
-/
def Invocation.parse? (arguments : List String) : Option Invocation := do
  let (before, rest) ← options? commonOptions arguments
  match rest with
  | [] => none
  | name :: rest =>
    let specs ← commandOptions? name
    let (after, rest) ← options? (commonOptions ++ specs) rest
    guard (rest.isEmpty || rest == ["--"])
    let command ← command? name after
    let _ ← invocation? before command
    invocation? (after ++ before) command

end ThreeAddress.CommandLine
