import ThreeAddress.Ssa.PhiPlacement
import ThreeAddress.Ssa.Versions

/-! Conversion to static single assignment form: phis are placed, and every variable that needs
it is renamed in a walk down the dominator tree.
-/

namespace ThreeAddress

/-- The argument of a phi where no definition reaches an edge, unless another is chosen. -/
def defaultUndefName : String := "__undefined"

/-- How to convert a function. -/
structure SsaConfig where
  /-- Rename every variable with a definition, not only the global ones. -/
  renameLocals : Bool := false
  /-- The argument of a phi for an edge that no definition reaches. -/
  undefName : String := defaultUndefName
deriving DecidableEq, Repr

/-- What a conversion found: the global variables in the order of their first use, and how many
phis were placed.
-/
structure SsaSummary where
  globals : List String
  phis : Nat
deriving DecidableEq, Repr

/-- Everything a renaming depends on and does not change. -/
structure RenamePlan where
  cfg : Cfg
  globals : Globals cfg
  placement : Placement
  config : SsaConfig

/-- A block after renaming. -/
structure RenamedBlock where
  /-- The versions at the top of the block. -/
  entry : Versions
  /-- The versions its phis define. -/
  phiDests : List String
  /-- Its operations other than the placed phis. -/
  body : List Operation
  /-- The versions at the end of the block. -/
  exit : Versions

/-- A renaming in progress: the versions at this point, and the blocks entered so far in the order
in which they were entered.
-/
structure Renaming (plan : RenamePlan) where
  versions : Versions
  done : List (plan.cfg.Block × RenamedBlock) := []

namespace RenamePlan

def isRenamed (plan : RenamePlan) (var : String) : Bool :=
  plan.globals.isGlobal var || (plan.config.renameLocals && plan.globals.isDefined var)

/-- Creates a version of a variable if it is renamed. The result lists the variable if so. -/
def define (plan : RenamePlan) (versions : Versions) (var : String)
    : String × Versions × List String :=
  if plan.isRenamed var then
    let (name, versions) := versions.fresh var
    (name, versions, [var])
  else (var, versions, [])

/-- Defines parameters from left to right. -/
def renameParams (plan : RenamePlan)
    : Versions → List Param → List Param × Versions × List String
  | versions, [] => ([], versions, [])
  | versions, param :: rest =>
    let (name, versions, pushed) := plan.define versions param.name
    let (params, versions, later) := plan.renameParams versions rest
    ({ param with name } :: params, versions, pushed ++ later)

/-- The versions defined by the phis of a block. -/
def renamePhis : Versions → List String → List String × Versions
  | versions, [] => ([], versions)
  | versions, var :: rest =>
    let (name, versions) := versions.fresh var
    let (names, versions) := renamePhis versions rest
    (name :: names, versions)

/-- The version that a use of a variable stands for, or the variable as an error if it is renamed
and none of its versions is in scope.
-/
def renameUse (plan : RenamePlan) (versions : Versions) (var : String) : Except String String :=
  if plan.isRenamed var then
    match versions.current? var with
    | some name => .ok name
    | none => .error var
  else .ok var

/-- Renames operations from first to last. The result lists the variables that got versions. -/
def renameBody (plan : RenamePlan)
    : Versions → List Operation → Except String (List Operation × Versions × List String)
  | versions, [] => .ok ([], versions, [])
  | versions, op :: rest => do
    let args ← op.args.mapM (plan.renameUse versions)
    let (dest, versions, pushed) := match op.dest with
      | some var =>
        let (name, versions, pushed) := plan.define versions var
        (some name, versions, pushed)
      | none => (none, versions, [])
    let (ops, versions, later) ← plan.renameBody versions rest
    .ok ({ op with args, dest } :: ops, versions, pushed ++ later)

/-- Renames one block. The result lists the variables that got versions in it. -/
def renameBlock (plan : RenamePlan) (versions : Versions) (b : plan.cfg.Block)
    : Except AnalysisError (RenamedBlock × List String) :=
  let phiVars := plan.placement.varsAt b
  let (phiDests, inside) := renamePhis versions phiVars
  match plan.renameBody inside (plan.cfg.body b) with
  | .ok (body, exit, pushed) =>
    .ok ({ entry := versions, phiDests, body, exit }, phiVars ++ pushed)
  | .error var => .error (.undefinedVariable plan.cfg.func (plan.cfg.label b) var)

/-- Renames a block and then everything below it in the dominator tree, one child after another,
and takes the versions of the block out of scope again.
-/
def renameBelow (plan : RenamePlan) (tree : DomTree plan.cfg.toFlowGraph)
    : Nat → Renaming plan → plan.cfg.Block → Except AnalysisError (Renaming plan)
  | 0, state, _ => .ok state
  | depth + 1, state, b => do
    let (block, pushed) ← plan.renameBlock state.versions b
    let entered : Renaming plan :=
      { versions := block.exit, done := state.done ++ [(b, block)] }
    let state ← (tree.children b).foldlM (plan.renameBelow tree depth) entered
    .ok { state with versions := pushed.foldl Versions.pop state.versions }

/-- Renames the parameters and all blocks. No way down the tree is longer than the number of
blocks.
-/
def rename (plan : RenamePlan) (tree : DomTree plan.cfg.toFlowGraph) (params : List Param)
    : Except AnalysisError (List Param × Renaming plan) := do
  let (params, versions, pushed) := plan.renameParams .empty params
  let state ← plan.renameBelow tree plan.cfg.size { versions } plan.cfg.entry
  .ok (params, { state with versions := pushed.foldl Versions.pop state.versions })

end RenamePlan

namespace Renaming

variable {plan : RenamePlan}

/-- A block after renaming, if it was entered. -/
def block? (state : Renaming plan) (b : plan.cfg.Block) : Option RenamedBlock :=
  state.done.lookup b

/-- The argument of a phi for an edge: the version at the end of the block that the edge leaves,
or the marker for an edge that no definition reaches.
-/
def slot (state : Renaming plan) (var : String) (pred : plan.cfg.Block) : String :=
  match state.block? pred with
  | some block => (block.exit.current? var).getD plan.config.undefName
  | none => var

def phi (state : Renaming plan) (b : plan.cfg.Block) (var dest : String) : Operation :=
  { plan.globals.blankPhi b var with
    dest
    args := (plan.cfg.preds b).map (state.slot var) }

def body (state : Renaming plan) (b : plan.cfg.Block) : List Operation :=
  match state.block? b with
  | some block =>
    List.zipWith (state.phi b) (plan.placement.varsAt b) block.phiDests ++ block.body
  | none => plan.globals.bodyWithPhis plan.placement b

end Renaming

/-- The renaming that a function with the given graph needs. -/
def Cfg.renamePlan (g : Cfg) (params : List Param) (config : SsaConfig) : RenamePlan :=
  let globals := g.globals params
  { cfg := g, globals, placement := globals.placement g.domTree.frontiers, config }

/-- Converts a function. It fails if the function has phis already, has no control flow graph
with all blocks reachable, or uses a variable that no definition reaches.
-/
def Function.toSsa (f : Function) (config : SsaConfig := {})
    : Except AnalysisError (Function × SsaSummary) := do
  if f.hasPhi then .error (.alreadyInSsa f.name)
  let g ← (Cfg.ofFunction? f).mapError .layout
  let plan := g.renamePlan f.params config
  let (params, state) ← plan.rename g.domTree f.params
  let body := g.assemble state.body
  .ok ({ f with params, body },
    { globals := plan.globals.names, phis := plan.placement.phiCount g.toFlowGraph })

end ThreeAddress
