import ThreeAddress.ControlFlow.Cfg
import ThreeAddress.Dataflow.Analysis
import ThreeAddress.Dataflow.NameSet

/-! Which definitions of a variable may have given it its value. -/

namespace ThreeAddress

/-- Where a variable gets a value: as a parameter, or at an operation given by its block and its
position in it.
-/
inductive DefSite where
  | param
  | operation (block : BlockId) (index : Nat)
deriving DecidableEq, Repr

/-- A variable together with a place that defines it. -/
structure Definition where
  var : String
  site : DefSite
deriving DecidableEq, Repr

/-- Block and position of a site; a parameter has none, which puts it in front. -/
def DefSite.place : DefSite → List Nat
  | param => []
  | operation block index => [block, index]

/-- Different sites are at different places. -/
theorem DefSite.place_injective {left right : DefSite} (h : left.place = right.place)
    : left = right := by
  cases left <;> cases right <;> simp_all [place]

namespace Definition

/-- Definitions are ordered by variable, then by place. -/
instance : Ord Definition where
  compare := compareLex (compareOn (·.var)) (compareOn (·.site.place))

/-- The order of definitions is transitive, as both of its parts are. -/
instance : Std.TransOrd Definition :=
  inferInstanceAs
    (Std.TransCmp (compareLex (compareOn Definition.var) (compareOn (·.site.place))))

/-- Definitions that are equal in the order have the same variable and place. -/
instance : Std.LawfulEqOrd Definition where
  eq_of_compare {left right} h := by
    have parts := compareLex_eq_eq.mp h
    have var : left.var = right.var := Std.LawfulEqOrd.eq_of_compare parts.1
    have place : left.site.place = right.site.place := Std.LawfulEqOrd.eq_of_compare parts.2
    have site := DefSite.place_injective place
    cases left
    cases right
    simp_all

/-- The definition with its block given by number. -/
def text (definition : Definition) : String :=
  let var := definition.var
  match definition.site with
  | .param => s!"{var}@param"
  | .operation block index => s!"{var}@block{block}:{index}"

/-- The definition with its block given by label. -/
def labelled (g : Cfg) (definition : Definition) : String :=
  let var := definition.var
  match definition.site with
  | .param => s!"{var}@param"
  | .operation block index =>
    let label := if h : block < g.size then g.label ⟨block, h⟩ else ""
    s!"{var}@.{label}:{index}"

end Definition

/-- An ordered set of definitions. -/
abbrev DefSet := Std.ExtTreeSet Definition

/-- Whether a definition ends the reach of earlier ones of the same variable. -/
inductive ReachMode where
  | keep
  | kill
deriving DecidableEq, Repr

namespace ReachMode

/-- What remains of a set of definitions when a variable is defined again. -/
def surviving (mode : ReachMode) (defs : DefSet) (var : String) : DefSet :=
  match mode with
  | keep => defs
  | kill => defs.filter fun definition => definition.var != var

/-- The definitions after an operation of a block. -/
def after (mode : ReachMode) (block : BlockId) (defs : DefSet) : Operation × Nat → DefSet
  | (op, index) =>
    match op.dest with
    | some var => (mode.surviving defs var).insert { var, site := .operation block index }
    | none => defs

end ReachMode

/-- The definitions of parameters. -/
def paramDefs (params : List Param) : DefSet :=
  .ofList (params.map fun p => ({ var := p.name, site := .param } : Definition))

/-- The problem of the definitions that reach a place along some path. Parameters are defined
before the entry.
-/
def Cfg.reachingDefinitions (g : Cfg) (params : List Param) (mode : ReachMode)
    : Analysis g.toFlowGraph DefSet :=
  { direction := .forward
    bottom := ∅
    boundary := paramDefs params
    merge := unionAll
    transfer := fun b defs => (g.body b).zipIdx.foldl (mode.after b) defs }

end ThreeAddress
