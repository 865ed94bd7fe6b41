import ThreeAddress.ControlFlow.Cfg
import ThreeAddress.Program.Listing
import ThreeAddress.Ssa.Conversion
import ThreeAddress.Verification.Report

/-! Checking that a function is in static single assignment form: every variable is defined once,
every use comes after its definition on every path, and every phi has one slot for each edge into
its block.
-/

namespace ThreeAddress

/-- How much is checked: definitions and the shape of phis, or also dominance. -/
inductive VerificationLevel where
  | fast
  | full
deriving DecidableEq, Repr

/-- How to verify a function. -/
structure VerifierConfig where
  level : VerificationLevel := .full
  /-- How many findings are reported at most; zero for all. -/
  maxDiagnostics : Nat := 500
  /-- A block that is not reachable is a warning and not an error. -/
  allowUnreachable : Bool := false
  /-- Check dominance at any level. -/
  checkDominance : Bool := true
  /-- The phi argument that stands for no definition. -/
  undefName : String := defaultUndefName
deriving DecidableEq, Repr

namespace VerifierConfig

/-- The usual settings for a level. -/
def forLevel : VerificationLevel → VerifierConfig
  | .fast => { level := .fast, maxDiagnostics := 200, checkDominance := false }
  | .full => {}

def checksDominance (config : VerifierConfig) : Bool :=
  config.checkDominance || config.level == .full

end VerifierConfig

/-- A definition: its variable, the block and position of its operation unless it is a parameter,
and the type it declares.
-/
structure SiteDef (g : Cfg) where
  var : String
  site : Option (g.Block × Nat)
  ty : Option Ty

namespace Cfg

variable (g : Cfg)

def paramSites (params : List Param) : List (SiteDef g) :=
  params.map fun p => { var := p.name, site := none, ty := some p.ty }

def sitesIn (b : g.Block) : List (SiteDef g) :=
  (g.body b).zipIdx.filterMap fun (op, index) =>
    op.dest.map fun var => { var, site := some (b, index), ty := op.ty }

/-- All definitions, parameters first and then in the order they are written. -/
def allSites (params : List Param) : List (SiteDef g) :=
  g.paramSites params ++ g.blocks.flatMap g.sitesIn

def operationLocation (b : g.Block) (index : Nat) : Location :=
  .operation g.func (g.label b) index

/-- A definition in words. -/
def siteText (d : SiteDef g) : String :=
  match d.site with
  | none => "a parameter"
  | some (b, index) => (g.operationLocation b index).text

/-- An error about an operation. -/
def operationError (b : g.Block) (index : Nat) (op : Operation) (code : DiagnosticCode)
    (message : String) (notes : List String := []) : Diagnostic :=
  { code
    severity := .error
    message
    primary := g.operationLocation b index
    notes
    context := some op.listing }

/-- The operation at a site. -/
def operationAt? (b : g.Block) (index : Nat) : Option Operation :=
  (g.body b)[index]?

end Cfg

/-- A function to verify, with what is derived from it. -/
structure Subject where
  cfg : Cfg
  tree : DomTree cfg.toFlowGraph
  sites : List (SiteDef cfg)
  config : VerifierConfig

namespace Subject

variable (s : Subject)

def siteOf? (var : String) : Option (SiteDef s.cfg) :=
  s.sites.find? fun d => d.var == var

def redefinition (first again : SiteDef s.cfg) : Diagnostic :=
  let var := again.var
  match again.site with
  | none =>
    { code := .multipleDefinition
      severity := .error
      message := s!"parameter `{var}` is declared more than once"
      primary := .function s.cfg.func }
  | some (b, index) =>
    let op := (s.cfg.operationAt? b index).getD { opcode := .nop }
    s.cfg.operationError b index op .multipleDefinition s!"`{var}` is assigned more than once"
      ["first defined at " ++ s.cfg.siteText first]

/-- The definitions of variables that an earlier definition has. -/
def redefinitions (earlier : List (SiteDef s.cfg)) : List (SiteDef s.cfg) → List Diagnostic
  | [] => []
  | d :: rest =>
    ((earlier.find? fun e => e.var == d.var).map (s.redefinition · d)).toList
      ++ redefinitions (earlier ++ [d]) rest

/-- The value of a definition is there at the end of a block. -/
def isAvailableAtEnd (d : SiteDef s.cfg) (b : s.cfg.Block) : Bool :=
  match d.site with
  | none => true
  | some (block, _) => s.tree.dominates block b

def typeMismatch (b : s.cfg.Block) (index : Nat) (op : Operation) (arg label : String)
    (d : SiteDef s.cfg) : List Diagnostic :=
  match op.ty, d.ty with
  | some expected, some found =>
    if expected = found then []
    else
      let expected := expected.text
      let found := found.text
      [s.cfg.operationError b index op .phiIncomingTypeMismatch
        s!"`{arg}` has type {found}, phi expects {expected}" [s!"incoming from `.{label}`"]]
  | _, _ => []

/-- The argument of a slot is not there at the end of the block it comes from. -/
def unavailable (b : s.cfg.Block) (index : Nat) (op : Operation) (arg label : String)
    (d : SiteDef s.cfg) (pred : s.cfg.Block) : List Diagnostic :=
  if s.config.checksDominance && s.tree.isReachable pred && !s.isAvailableAtEnd d pred then
    [s.cfg.operationError b index op .phiIncomingNotAvailableOnEdge
      s!"`{arg}` is not available at the end of `.{label}`"
      [s!"`{arg}` is defined at " ++ s.cfg.siteText d]]
  else []

/-- The block with the given label, if it is a predecessor of another. -/
def predNamed? (b : s.cfg.Block) (label : String) : Option s.cfg.Block :=
  (s.cfg.blockOf? label).filter fun pred => (s.cfg.preds b).contains pred

/-- What is wrong with one slot of a phi whose label no earlier slot has. -/
def slotFindings (b : s.cfg.Block) (index : Nat) (op : Operation) (arg label : String)
    : List Diagnostic :=
  match s.predNamed? b label with
  | none =>
    [s.cfg.operationError b index op .phiHasNonPredIncoming
      "phi incoming label is not a predecessor of its block"
      [s!"`.{label}` has no edge to this block"]]
  | some pred =>
    if arg == s.config.undefName then []
    else match s.siteOf? arg with
      | none =>
        [s.cfg.operationError b index op .undefinedVariable
          s!"`{arg}` has no definition" [s!"incoming from `.{label}`"]]
      | some d =>
        s.typeMismatch b index op arg label d ++ s.unavailable b index op arg label d pred

/-- What is wrong with the slots of a phi, given the labels of earlier slots. -/
def slotsFindings (b : s.cfg.Block) (index : Nat) (op : Operation) (seen : List String)
    : List (String × String) → List Diagnostic
  | [] => []
  | (arg, label) :: rest =>
    if seen.contains label then
      s.cfg.operationError b index op .phiDuplicateIncomingBlock
          "phi has more than one slot for the same edge" [s!"`.{label}` is listed twice"]
        :: slotsFindings b index op seen rest
    else
      s.slotFindings b index op arg label ++ slotsFindings b index op (label :: seen) rest

/-- A phi does not have one argument and one label for each predecessor. -/
def slotCount (b : s.cfg.Block) (index : Nat) (op : Operation) : List Diagnostic :=
  let args := op.args.length
  let labels := op.labels.length
  let preds := (s.cfg.preds b).length
  if args = labels ∧ labels = preds then []
  else
    [s.cfg.operationError b index op .phiArgCountMismatchPreds
      "phi slots don't match the predecessors of its block"
      [s!"{args} argument(s), {labels} label(s), {preds} predecessor(s)"]]

/-- What is wrong with a phi. Its slots are looked at only outside the entry. -/
def phiFindings (b : s.cfg.Block) (index : Nat) (op : Operation) (afterOther : Bool)
    : List Diagnostic :=
  let position :=
    if afterOther then
      [s.cfg.operationError b index op .phiNotAtBlockTop "phi follows a non-phi instruction"]
    else []
  let slots :=
    if b = s.cfg.entry then
      [s.cfg.operationError b index op .phiInEntryBlock
        "entry block has no predecessors to select from"]
    else s.slotCount b index op ++ s.slotsFindings b index op [] op.slots
  position ++ slots

/-- What is wrong with the phis of a block. -/
def phisFindings (b : s.cfg.Block) : Bool → List (Operation × Nat) → List Diagnostic
  | _, [] => []
  | afterOther, (op, index) :: rest =>
    if op.isPhi then
      s.phiFindings b index op afterOther ++ phisFindings b afterOther rest
    else phisFindings b true rest

/-- A definition does not come before a use of it on every path. -/
def orderFindings (b : s.cfg.Block) (index : Nat) (op : Operation) (arg : String)
    (d : SiteDef s.cfg) : List Diagnostic :=
  match d.site with
  | none => []
  | some (block, defIndex) =>
    if block = b then
      if index ≤ defIndex then
        [s.cfg.operationError b index op .useBeforeDefInBlock
          s!"`{arg}` is used before its definition"
          [s!"defined at index {defIndex}, used at {index}"]]
      else []
    else if s.tree.strictlyDominates block b then []
    else
      [s.cfg.operationError b index op .defDoesNotDominateUse
        s!"definition of `{arg}` does not dominate its use"
        [s!"`{arg}` is defined at " ++ s.cfg.siteText d]]

/-- What is wrong with one use of a variable. -/
def useFindings (b : s.cfg.Block) (index : Nat) (op : Operation) (arg : String)
    : List Diagnostic :=
  match s.siteOf? arg with
  | none => [s.cfg.operationError b index op .undefinedVariable s!"`{arg}` has no definition"]
  | some d =>
    if s.config.checksDominance && s.tree.isReachable b then s.orderFindings b index op arg d
    else []

/-- What is wrong with the uses in a block outside its phis. -/
def usesFindings (b : s.cfg.Block) : List Diagnostic :=
  (s.cfg.body b).zipIdx.flatMap fun (op, index) =>
    if op.isPhi then [] else op.args.flatMap (s.useFindings b index op)

/-- What is wrong with a block, after the remark that it is not reachable. -/
def blockFindings (b : s.cfg.Block) : List Diagnostic :=
  let reach : List Diagnostic :=
    if s.tree.isReachable b then []
    else
      [{ code := .unreachableBlock
         severity := .warning
         message := "block is not reachable from the entry, dominance is not checked"
         primary := .block s.cfg.func (s.cfg.label b) }]
  reach ++ s.phisFindings b false (s.cfg.body b).zipIdx ++ s.usesFindings b

def findings : List Diagnostic :=
  s.redefinitions [] s.sites ++ s.cfg.blocks.flatMap s.blockFindings

end Subject

/-- A function that has no control flow graph has that as its only finding. -/
def LayoutError.diagnostic (error : LayoutError) : Diagnostic :=
  { code := match error.kind with
      | .unreachableBlock => .unreachableBlock
      | _ => .malformedFunction
    severity := .error
    message := error.message
    primary := .function error.func }

namespace VerifierConfig

/-- Everything that is wrong with a function, whatever the limit. -/
def findings (config : VerifierConfig) (f : Function) : List Diagnostic :=
  match Cfg.ofFunction? f config.allowUnreachable with
  | .error error => [error.diagnostic]
  | .ok cfg =>
    { cfg, tree := cfg.domTree, sites := cfg.allSites f.params, config : Subject }.findings

def verifyFunction (config : VerifierConfig) (f : Function) : Report :=
  Report.extend config.maxDiagnostics {} (config.findings f)

def verifyProgram (config : VerifierConfig) (program : Program) : Report :=
  Report.merge config.maxDiagnostics {} (program.functions.map config.verifyFunction)

end VerifierConfig

end ThreeAddress
