import ThreeAddress.Proofs.ControlFlow.Edges
import ThreeAddress.Proofs.Graph.DominatorTree
import ThreeAddress.Verification.Verifier

/-! Valid static single assignment form, said of all paths through a function, and the definitions
that a verification collects from it.
-/

namespace ThreeAddress

-----------------------------------------------------------------------------------------
-- Definitions and where they are
-----------------------------------------------------------------------------------------

namespace Cfg

/-- The operation at a position of a block defines a variable. -/
def DefinedAt (g : Cfg) (var : String) (b : g.Block) (index : Nat) : Prop :=
  ∃ op, (g.body b)[index]? = some op ∧ op.dest = some var

/-- Every path from the entry to a position of a block passes another position first. The list of a
walk has the blocks it has left behind, so all of their positions are passed.
-/
def Passes (g : Cfg) (d : g.Block) (defIndex : Nat) (b : g.Block) (index : Nat) : Prop :=
  ∀ left, g.Walk g.entry left b → d ∈ left ∨ d = b ∧ defIndex < index

-----------------------------------------------------------------------------------------
-- Validity
-----------------------------------------------------------------------------------------

/-- Single assignment form, whatever the types: definitions are distinct, phis stand at the top of
blocks other than the entry with one slot for each predecessor, and definitions are passed before
their uses. The use in a slot of a phi is at the end of the block the slot is for.
-/
structure SsaForm (g : Cfg) (f : Function) (undefName : String) : Prop where
  definitions_nodup : f.definitions.Nodup
  phis_first : ∀ b, ∀ op ∈ (g.body b).dropWhile Operation.isPhi, op.isPhi = false
  entry_free : ∀ op ∈ g.body g.entry, op.isPhi = false
  phi_edges : ∀ b, ∀ op ∈ g.body b, op.isPhi = true →
    op.labels.Perm ((g.preds b).map g.label) ∧ op.args.length = op.labels.length
  uses_defined : ∀ b index op, (g.body b)[index]? = some op → op.isPhi = false → ∀ arg ∈ op.args,
    f.IsParam arg
      ∨ ∃ d defIndex, g.DefinedAt arg d defIndex
        ∧ (g.Reachable b → g.Passes d defIndex b index)
  slots_defined : ∀ b, ∀ op ∈ g.body b, op.isPhi = true → ∀ arg p, (arg, g.label p) ∈ op.slots →
    arg ≠ undefName →
    f.IsParam arg
      ∨ ∃ d defIndex, g.DefinedAt arg d defIndex
        ∧ (g.Reachable p → g.Passes d defIndex p (g.body p).length)

/-- Phis and the definitions in their slots do not declare different types. -/
def SlotTypesAgree (g : Cfg) (f : Function) (undefName : String) : Prop :=
  ∀ b, ∀ op ∈ g.body b, op.isPhi = true → ∀ arg ∈ op.args, arg ≠ undefName →
    ∀ expected found, op.ty = some expected → (arg, some found) ∈ f.typedDefinitions →
      expected = found

/-- Valid static single assignment form. -/
structure ValidSsa (g : Cfg) (f : Function) (undefName : String) : Prop
    extends g.SsaForm f undefName where
  slot_types : g.SlotTypesAgree f undefName

-----------------------------------------------------------------------------------------
-- Paths and dominance
-----------------------------------------------------------------------------------------

variable {g : Cfg}

/-- Paths to a reachable block pass an earlier position of it, and no other: a path that enters the
block for the first time has not left it yet.
-/
theorem passes_self {b : g.Block} (reach : g.Reachable b) {defIndex index : Nat}
    : g.Passes b defIndex b index ↔ defIndex < index := by
  constructor
  · intro passes
    obtain ⟨left, walk, absent⟩ := reach.exists_first
    exact ((passes left walk).resolve_left absent).2
  · intro before left _
    exact .inr ⟨rfl, before⟩

/-- Paths to a reachable block pass the positions of another block if that block dominates. -/
theorem passes_other {d b : g.Block} (reach : g.Reachable b) (other : d ≠ b) {defIndex index : Nat}
    : g.Passes d defIndex b index ↔ g.StrictlyPathDominates d b := by
  constructor
  · intro passes
    exact ⟨other, reach, fun left walk => (passes left walk).imp_right And.left⟩
  · intro dom left walk
    exact .inl ((dom.2.2 left walk).resolve_right other)

/-- Paths to the end of a reachable block pass the positions of the blocks that dominate it. -/
theorem passes_end {d b : g.Block} (reach : g.Reachable b) {defIndex : Nat}
    (inside : defIndex < (g.body d).length)
    : g.Passes d defIndex b (g.body b).length ↔ g.PathDominates d b := by
  by_cases same : d = b
  · subst same
    exact iff_of_true ((passes_self reach).mpr inside) (.refl reach)
  · rw [passes_other reach same]
    exact ⟨And.right, fun dom => ⟨same, dom⟩⟩

/-- A definition stands inside its block. -/
theorem DefinedAt.inside {var : String} {b : g.Block} {index : Nat}
    (defined : g.DefinedAt var b index)
    : index < (g.body b).length := by
  obtain ⟨op, found, -⟩ := defined
  exact (List.getElem?_eq_some_iff.mp found).1

-----------------------------------------------------------------------------------------
-- Collected definitions
-----------------------------------------------------------------------------------------

/-- The definitions collected in a block are the results of its operations. -/
theorem map_sitesIn (b : g.Block)
    : (g.sitesIn b).map (fun d => (d.var, d.ty))
      = (g.body b).filterMap fun op => op.dest.map fun var => (var, op.ty) := by
  conv_rhs => rw [← List.zipIdx_map_fst 0 (g.body b)]
  rw [sitesIn, List.map_filterMap, List.filterMap_map]
  congr 1
  funext x
  rw [Option.map_map]
  rfl

/-- The definitions collected from an accepted function are those it has. -/
theorem map_allSites {f : Function} {allow : Bool} (ok : ofFunction? f allow = .ok g)
    : (g.allSites f.params).map (fun d => (d.var, d.ty)) = f.typedDefinitions := by
  rw [allSites, Function.typedDefinitions, List.map_append, paramSites, List.map_map,
    List.map_flatMap, funext map_sitesIn, ← List.filterMap_flatMap, ← f.flatMap_body_layout,
    ← layout_of_ok ok, ← g.map_content, List.flatMap_map]
  rfl

/-- A definition is collected in a block for each operation that has a result. -/
theorem mem_sitesIn {b : g.Block} {d : SiteDef g}
    : d ∈ g.sitesIn b
      ↔ ∃ op index, (g.body b)[index]? = some op ∧ op.dest = some d.var
        ∧ d.site = some (b, index) ∧ d.ty = op.ty := by
  simp only [sitesIn, List.mem_filterMap, Prod.exists, List.mk_mem_zipIdx_iff_getElem?,
    Option.map_eq_some_iff]
  constructor
  · intro listed
    obtain ⟨op, index, found, var, result, rfl⟩ := listed
    exact ⟨op, index, found, result, rfl, rfl⟩
  · intro placed
    obtain ⟨op, index, found, result, site, ty⟩ := placed
    obtain ⟨var, _, _⟩ := d
    subst site ty
    exact ⟨op, index, found, var, result, rfl⟩

/-- The collected definitions are parameters and results of operations, with their sites. -/
theorem mem_allSites {params : List Param} {d : SiteDef g}
    : d ∈ g.allSites params
      ↔ d.site = none ∧ (∃ p ∈ params, p.name = d.var ∧ d.ty = some p.ty)
        ∨ ∃ b index op, (g.body b)[index]? = some op ∧ op.dest = some d.var
          ∧ d.site = some (b, index) ∧ d.ty = op.ty := by
  simp only [allSites, List.mem_append, paramSites, List.mem_map, List.mem_flatMap,
    FlowGraph.mem_blocks, true_and, mem_sitesIn]
  apply or_congr
  · constructor
    · intro listed
      obtain ⟨p, member, rfl⟩ := listed
      exact ⟨rfl, p, member, rfl, rfl⟩
    · intro placed
      obtain ⟨site, p, member, var, ty⟩ := placed
      obtain ⟨_, _, _⟩ := d
      subst site ty var
      exact ⟨p, member, rfl⟩
  · exact exists_congr fun b => exists_comm

/-- The names of the collected definitions are those that the function defines. -/
theorem map_var_allSites {f : Function} {allow : Bool} (ok : ofFunction? f allow = .ok g)
    : (g.allSites f.params).map SiteDef.var = f.definitions := by
  rw [← f.map_fst_typedDefinitions, ← map_allSites ok, List.map_map]
  rfl

section unique

variable {f : Function} {allow : Bool} (ok : ofFunction? f allow = .ok g)
  (once : f.definitions.Nodup) {var : String} {b : g.Block} {index : Nat}

include ok once

/-- If all definitions are distinct, then each variable is defined in one place. -/
theorem DefinedAt.unique {c : g.Block} {other : Nat} (first : g.DefinedAt var b index)
    (second : g.DefinedAt var c other)
    : b = c ∧ index = other := by
  obtain ⟨op, found, result⟩ := first
  obtain ⟨op', found', result'⟩ := second
  have here : ⟨var, some (b, index), op.ty⟩ ∈ g.allSites f.params :=
    mem_allSites.mpr (.inr ⟨b, index, op, found, result, rfl, rfl⟩)
  have there : ⟨var, some (c, other), op'.ty⟩ ∈ g.allSites f.params :=
    mem_allSites.mpr (.inr ⟨c, other, op', found', result', rfl, rfl⟩)
  have same := List.inj_on_of_nodup_map (map_var_allSites ok ▸ once) here there rfl
  exact Prod.mk.inj (Option.some.inj (congrArg SiteDef.site same))

/-- If all definitions are distinct, then no parameter is defined again. -/
theorem DefinedAt.not_isParam (defined : g.DefinedAt var b index)
    : ¬ f.IsParam var := by
  rintro ⟨p, listed, name⟩
  obtain ⟨op, found, result⟩ := defined
  have here : ⟨var, some (b, index), op.ty⟩ ∈ g.allSites f.params :=
    mem_allSites.mpr (.inr ⟨b, index, op, found, result, rfl, rfl⟩)
  have there : ⟨var, none, some p.ty⟩ ∈ g.allSites f.params :=
    mem_allSites.mpr (.inl ⟨rfl, p, listed, name, rfl⟩)
  have same := List.inj_on_of_nodup_map (map_var_allSites ok ▸ once) here there rfl
  cases congrArg SiteDef.site same

end unique

end Cfg

end ThreeAddress
