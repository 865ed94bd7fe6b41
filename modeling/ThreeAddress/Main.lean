import ThreeAddress.CommandLine.Run

/-! The program as it is called from a shell. -/

open ThreeAddress.CommandLine

/-- Reads the whole standard input. -/
def readStdin : IO String := do
  (← IO.getStdin).readToEnd

/-- Why a file cannot be opened or read, in words. -/
def fileReason : IO.Error → String
  | .noFileOrDirectory .. => noSuchFile
  | .inappropriateType .. => isADirectory
  | e => e.toString

/-- Reads a file, or tells why it cannot be opened or read. -/
def readInputFile (path : String) : IO (Except InputFailure String) := do
  match ← (IO.FS.Handle.mk path .read).toBaseIO with
  | .error e => return .error (.cannotOpen (fileReason e))
  | .ok handle =>
    match ← handle.readToEnd.toBaseIO with
    | .error e => return .error (.cannotRead (fileReason e))
    | .ok text => return .ok text

/-- Runs one call: reads its input, writes its output and gives its exit code. -/
def main (arguments : List String) : IO UInt32 := do
  let outcome ← match Invocation.parse? arguments with
    | none => pure Outcome.usage
    | some inv => do
      let input ← match inv.input with
        | none => Except.ok <$> readStdin
        | some path => readInputFile path
      pure (inv.execute input)
  (← IO.getStdout).putStr outcome.stdout
  (← IO.getStderr).putStr outcome.stderr
  return UInt32.ofNat outcome.code
