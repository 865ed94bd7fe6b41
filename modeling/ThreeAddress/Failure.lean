import ThreeAddress.Program.Opcode

/-! What can go wrong in a function, and the wording of it. -/

namespace ThreeAddress

/-- The kinds of failure shared by all analyses. -/
inductive FailureKind where
  | malformedProgram
  | unreachableBlock
  | dominanceUndefined
  | nonMonotoneAnalysis
deriving DecidableEq, Repr

def FailureKind.text : FailureKind → String
  | malformedProgram => "malformed program"
  | unreachableBlock => "unreachable block"
  | dominanceUndefined => "dominance undefined"
  | nonMonotoneAnalysis => "non-monotone analysis"

/-- Why a function has no control flow graph. -/
inductive LayoutFault where
  | noInstructions
  | duplicateLabel (label : String)
  | undeclaredLabel (block target : String)
  | branchArity (block : String) (opcode : Opcode) (expected found : Nat)
  | afterTerminator (block : String)
  | unreachable (block : String)
deriving DecidableEq, Repr

/-- A fault together with the function it was found in. -/
structure LayoutError where
  func : String
  fault : LayoutFault
deriving DecidableEq, Repr

namespace LayoutError

def kind (error : LayoutError) : FailureKind :=
  match error.fault with
  | .unreachable _ => .unreachableBlock
  | _ => .malformedProgram

/-- The wording of a fault. -/
def message (error : LayoutError) : String :=
  let func := error.func
  match error.fault with
  | .noInstructions => s!"function `{func}` has no instructions"
  | .duplicateLabel label =>
    s!"function `{func}`: label `{label}` is declared more than once"
  | .undeclaredLabel block target =>
    s!"function `{func}`: block `{block}` branches to undeclared label `{target}`"
  | .branchArity block opcode expected found =>
    let op := opcode.name
    s!"function `{func}`: `{op}` in block `{block}` expects {expected} target label(s), "
      ++ s!"found {found}"
  | .afterTerminator block =>
    s!"function `{func}`: terminator in block `{block}` is followed by more instructions"
  | .unreachable block =>
    s!"function `{func}`: block `{block}` is not reachable from any terminator or fallthrough"

end LayoutError

/-- Why an analysis of a function fails. -/
inductive AnalysisError where
  | layout (error : LayoutError)
  | dominanceUndefined (func block : String)
  | nonMonotone (func block : String) (visits : Nat)
  | undefinedVariable (func block var : String)
  | alreadyInSsa (func : String)
deriving DecidableEq, Repr

namespace AnalysisError

def kind : AnalysisError → FailureKind
  | layout error => error.kind
  | dominanceUndefined .. => .dominanceUndefined
  | nonMonotone .. => .nonMonotoneAnalysis
  | undefinedVariable .. => .malformedProgram
  | alreadyInSsa _ => .malformedProgram

/-- The wording of a failure. -/
def message : AnalysisError → String
  | layout error => error.message
  | dominanceUndefined func block =>
    s!"function `{func}`: dominance is undefined for block `{block}`, "
      ++ "which is unreachable from entry"
  | nonMonotone func block visits =>
    s!"function `{func}`: dataflow did not reach a fixed point within {visits} block visits "
      ++ s!"(last visited `{block}`); merge/transfer is not monotone"
  | undefinedVariable func block var =>
    s!"function `{func}`: `{var}` is used in block `{block}` but no definition reaches it"
  | alreadyInSsa func => s!"function `{func}` already contains phi instructions"

end AnalysisError

end ThreeAddress
