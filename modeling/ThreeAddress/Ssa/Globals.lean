import ThreeAddress.ControlFlow.Cfg

/-! Global variables: those that some block uses before it defines them. Only they can need a
phi, and all of them are renamed.
-/

namespace ThreeAddress

/-- A definition of a variable: the block it is in and the type it declares. -/
structure VarDef (g : Cfg) where
  var : String
  block : g.Block
  ty : Option Ty

/-- The global variables of a function and all definitions in it. -/
structure Globals (g : Cfg) where
  /-- The global variables in the order of their first use. -/
  names : List String
  /-- The definitions in the order they are written, parameters first. -/
  defs : List (VarDef g)

/-- The arguments of operations that none of the given variables and no earlier operation
defines.
-/
def exposedUses (killed : List String) : List Operation → List String
  | [] => []
  | op :: rest =>
    (op.args.filter fun arg => !killed.contains arg)
      ++ exposedUses (op.dest.toList ++ killed) rest

namespace Cfg

def defsIn (g : Cfg) (b : g.Block) : List (VarDef g) :=
  (g.body b).filterMap fun op => op.dest.map fun var => { var, block := b, ty := op.ty }

/-- The global variables of a function. Its parameters count as definitions in the entry. -/
def globals (g : Cfg) (params : List Param) : Globals g :=
  { names := (g.blocks.flatMap fun b => exposedUses [] (g.body b)).eraseDups
    defs := params.map (fun p => { var := p.name, block := g.entry, ty := some p.ty })
      ++ g.blocks.flatMap g.defsIn }

end Cfg

namespace Globals

variable {g : Cfg}

def isGlobal (globals : Globals g) (var : String) : Bool :=
  globals.names.contains var

def defsOf (globals : Globals g) (var : String) : List (VarDef g) :=
  globals.defs.filter fun d => d.var == var

def isDefined (globals : Globals g) (var : String) : Bool :=
  globals.defs.any fun d => d.var == var

def defBlocks (globals : Globals g) (var : String) : BlockSet :=
  FlowGraph.setOf ((globals.defsOf var).map (·.block))

/-- The type of a variable: the first one that a definition of it declares. -/
def tyOf? (globals : Globals g) (var : String) : Option Ty :=
  (globals.defsOf var).findSome? (·.ty)

end Globals

end ThreeAddress
