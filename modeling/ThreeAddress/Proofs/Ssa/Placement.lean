import ThreeAddress.Proofs.Graph.IteratedFrontier
import ThreeAddress.Proofs.Graph.Traversal
import ThreeAddress.Proofs.Ssa.Renaming

/-! Where phis stand: in the frontier of every block that defines a global variable, phis counted as
definitions, and never in the entry.
-/

namespace ThreeAddress

/-- What is left without duplicates has none, by induction on the length of the list. -/
theorem nodup_eraseDups (l : List String) : l.eraseDups.Nodup := by
  induction length : l.length using Nat.strongRecOn generalizing l with
  | ind n ih =>
      cases l with
      | nil => simp
      | cons first rest =>
          rw [List.eraseDups_cons, List.nodup_cons]
          constructor
          · simp [List.mem_eraseDups]
          · have shorter := List.length_filter_le (fun other => !other == first) rest
            simp only [List.length_cons] at length
            exact ih _ (by omega) _ rfl

namespace Globals

variable {g : Cfg} {globals : Globals g}

theorem isGlobal_iff {var : String} : globals.isGlobal var = true ↔ var ∈ globals.names := by
  rw [isGlobal, List.contains_iff_mem]

theorem isDefined_iff {var : String}
    : globals.isDefined var = true ↔ ∃ d ∈ globals.defs, d.var = var := by
  simp [isDefined]

theorem contains_defBlocks {var : String} {b : g.Block}
    : (globals.defBlocks var).contains b = true
      ↔ ∃ d ∈ globals.defs, d.var = var ∧ d.block = b := by
  simp [defBlocks, defsOf, FlowGraph.contains_setOf, and_assoc]

/-- A block has a phi for a variable if the variable is global, has a definition, and the block is
in the iterated frontier of its definitions.
-/
theorem mem_varsAt {frontiers : BlockTable g.toFlowGraph} {var : String} {b : g.Block}
    : var ∈ (globals.placement frontiers).varsAt b
      ↔ globals.isGlobal var = true ∧ globals.isDefined var = true
        ∧ (g.iteratedFrontier frontiers (globals.defBlocks var)).contains b = true := by
  simp only [Placement.varsAt, placement, List.mem_map, List.mem_filter, isGlobal_iff]
  constructor
  · intro listed
    obtain ⟨_, ⟨⟨name, ⟨global, defined⟩, rfl⟩, found⟩, rfl⟩ := listed
    exact ⟨global, defined, found⟩
  · intro ⟨global, defined, found⟩
    exact ⟨_, ⟨⟨var, ⟨global, defined⟩, rfl⟩, found⟩, rfl⟩

/-- A block has one phi for a variable at most, if no variable is listed as global twice. -/
theorem varsAt_nodup {frontiers : BlockTable g.toFlowGraph} (unique : globals.names.Nodup)
    (b : g.Block)
    : ((globals.placement frontiers).varsAt b).Nodup := by
  rw [Placement.varsAt, placement, List.filter_map, List.map_map]
  exact ((unique.filter _).filter _).map_on fun _ _ _ _ same => same

end Globals

namespace Cfg

variable {g : Cfg} {params : List Param} {config : SsaConfig}

/-- No variable is listed as global twice. -/
theorem nodup_names_globals (g : Cfg) (params : List Param) : (g.globals params).names.Nodup :=
  nodup_eraseDups _

/-- The definitions that phis are placed for are the parameters, which count as the entry's, and the
results of operations.
-/
theorem mem_defs_globals {var : String} {b : g.Block}
    : (∃ d ∈ (g.globals params).defs, d.var = var ∧ d.block = b)
      ↔ (b = g.entry ∧ ∃ p ∈ params, p.name = var)
        ∨ var ∈ (g.body b).filterMap Operation.dest := by
  simp only [globals, List.mem_append, List.mem_map, List.mem_flatMap, FlowGraph.mem_blocks,
    true_and, defsIn, List.mem_filterMap, Option.map_eq_some_iff]
  constructor
  · intro listed
    obtain ⟨d, ⟨p, member, rfl⟩ | ⟨c, op, member, dest, result, rfl⟩, rfl, rfl⟩ := listed
    · exact .inl ⟨rfl, p, member, rfl⟩
    · exact .inr ⟨op, member, result⟩
  · intro place
    rcases place with ⟨rfl, p, member, rfl⟩ | ⟨op, member, result⟩
    · exact ⟨_, .inl ⟨p, member, rfl⟩, rfl, rfl⟩
    · exact ⟨_, .inr ⟨b, op, member, var, result, rfl⟩, rfl, rfl⟩

/-- The global variables are those with a use that its own block does not define. -/
theorem isGlobal_iff_exposed {var : String}
    : (g.globals params).isGlobal var = true ↔ ∃ b : g.Block, var ∈ exposedUses [] (g.body b) := by
  rw [Globals.isGlobal_iff, globals, List.mem_eraseDups, List.mem_flatMap]
  simp only [FlowGraph.mem_blocks, true_and]

/-- The entry has no phi, since it is in no frontier. -/
theorem varsAt_entry (source : g.preds g.entry = [])
    : (g.renamePlan params config).placement.varsAt g.entry = [] := by
  rw [List.eq_nil_iff_forall_not_mem]
  intro var member
  obtain ⟨-, -, found⟩ := Globals.mem_varsAt.mp member
  have notEntry {a b : g.Block} (inFrontier : (g.domTree.frontiers.get a).contains b = true)
      : b ≠ g.entry := by
    intro same
    obtain ⟨-, p, edge, -⟩ := (FlowGraph.contains_frontiers_domTree source a b).mp inFrontier
    rw [same, ← FlowGraph.mem_preds, source] at edge
    exact List.not_mem_nil edge
  refine FlowGraph.iteratedFrontier_induction (P := fun b => b ≠ g.entry) ?_ ?_ g.entry found rfl
  · intro a _ b inFrontier
    exact notEntry inFrontier
  · intro a _ b inFrontier
    exact notEntry inFrontier

/-- What a block defines, as an operation or as a phi, has a phi in its frontier if it is global. -/
theorem mem_varsAt_of_inFrontier (source : g.preds g.entry = []) {var : String}
    (global : (g.globals params).isGlobal var = true) {a b : g.Block}
    (defined : var ∈ (g.renamePlan params config).definedIn a) (beyond : g.InFrontier a b)
    : var ∈ (g.renamePlan params config).placement.varsAt b := by
  have inFrontier := (FlowGraph.contains_frontiers_domTree source a b).mpr beyond
  rcases List.mem_append.mp defined with phi | operation
  · obtain ⟨-, known, found⟩ := Globals.mem_varsAt.mp phi
    exact Globals.mem_varsAt.mpr
      ⟨global, known, FlowGraph.frontier_subset_iteratedFrontier (.inr found) inFrontier⟩
  · obtain ⟨d, member, name, block⟩ := mem_defs_globals.mpr (.inr operation)
    have known : (g.globals params).isDefined var = true :=
      Globals.isDefined_iff.mpr ⟨d, member, name⟩
    have start : ((g.globals params).defBlocks var).contains a = true :=
      Globals.contains_defBlocks.mpr ⟨d, member, name, block⟩
    exact Globals.mem_varsAt.mpr
      ⟨global, known, FlowGraph.frontier_subset_iteratedFrontier (.inl start) inFrontier⟩

end Cfg

/-- What renaming relies on. Nothing leads to the entry. Phis are for global variables, one for
each in a block and none in the entry; they stand in the frontiers of all definitions; and a use
that its own block does not define is of a global variable.
-/
structure RenamePlan.Sound (plan : RenamePlan) : Prop where
  source : plan.cfg.preds plan.cfg.entry = []
  phi_global : ∀ b : plan.cfg.Block, ∀ var ∈ plan.placement.varsAt b,
    plan.globals.isGlobal var = true
  phis_nodup : ∀ b : plan.cfg.Block, (plan.placement.varsAt b).Nodup
  entry_free : plan.placement.varsAt plan.cfg.entry = []
  frontier_phi : ∀ var, plan.globals.isGlobal var = true → ∀ a b : plan.cfg.Block,
    var ∈ plan.definedIn a → plan.cfg.InFrontier a b → var ∈ plan.placement.varsAt b
  exposed_global : ∀ b : plan.cfg.Block, ∀ var ∈ exposedUses [] (plan.cfg.body b),
    plan.globals.isGlobal var = true

/-- The plan for a graph is sound, if nothing leads to the entry. -/
theorem Cfg.sound_renamePlan {g : Cfg} (source : g.preds g.entry = []) (params : List Param)
    (config : SsaConfig)
    : (g.renamePlan params config).Sound where
  source := source
  phi_global _ _ member := (Globals.mem_varsAt.mp member).1
  phis_nodup b := Globals.varsAt_nodup (g.nodup_names_globals params) b
  entry_free := varsAt_entry source
  frontier_phi _ global _ _ := mem_varsAt_of_inFrontier source global
  exposed_global b _ exposed := isGlobal_iff_exposed.mpr ⟨b, exposed⟩

/-- Phis are only placed for variables that are renamed. -/
theorem RenamePlan.Sound.phisRenamed {plan : RenamePlan} (sound : plan.Sound)
    : plan.PhisRenamed := by
  intro b var member
  rw [isRenamed, Bool.or_eq_true]
  exact .inl (sound.phi_global b var member)

/-- Also where edges lead to the entry, phis are only placed for variables that are renamed. -/
theorem Cfg.phisRenamed_renamePlan (g : Cfg) (params : List Param) (config : SsaConfig)
    : (g.renamePlan params config).PhisRenamed := by
  intro b var member
  rw [RenamePlan.isRenamed, Bool.or_eq_true]
  exact .inl (Globals.mem_varsAt.mp member).1

end ThreeAddress
