import Mathlib.Data.List.TakeWhile
import Mathlib.Order.Bounds.Basic
import ThreeAddress.Proofs.Dataflow.AlongWalks
import ThreeAddress.Proofs.Ssa.PhiInsertion

/-! Which variables are global, and which phis they get. A variable is global exactly when it is
live at the top of some block, and the blocks that get a phi for it are the least set with the
frontiers of its definitions and of its own members.
-/

namespace ThreeAddress

-----------------------------------------------------------------------------------------
-- Global variables are live
-----------------------------------------------------------------------------------------

/-- Where there is no phi, the exposed uses are those that come first, of variables that are not
known yet. By induction on the operations.
-/
theorem mem_exposedUses_iff (killed : List String) {ops : List Operation} {var : String}
    (noPhi : ∀ op ∈ ops, op.isPhi = false)
    : var ∈ exposedUses killed ops ↔ var ∉ killed ∧ UsedFirst ops var := by
  induction ops generalizing killed with
  | nil => simp [exposedUses, UsedFirst]
  | cons op rest ih =>
      obtain ⟨here, later⟩ := List.forall_mem_cons.mp noPhi
      have known : var ∉ op.dest.toList ++ killed ↔ op.dest ≠ some var ∧ var ∉ killed := by
        simp
      have exposedHere : var ∈ (op.args.filter fun arg => !killed.contains arg)
          ↔ var ∈ op.args ∧ var ∉ killed := by
        simp
      rw [exposedUses, List.mem_append, ih _ later, usedFirst_cons, known, exposedHere]
      simp only [here, true_and]
      tauto

/-- Where there is no phi, a variable is global exactly when it is live at the top of some block.
Uses that make it global make it live in their own blocks, and what is live anywhere is so because
of such a use.
-/
theorem Cfg.isGlobal_iff_live {g : Cfg} {visits : Nat} {solution : Solution g.toFlowGraph NameSet}
    (noPhi : ∀ b, ∀ op ∈ g.body b, op.isPhi = false)
    (solved : g.solve g.liveVariables visits = .ok solution) (params : List Param) (var : String)
    : (g.globals params).isGlobal var = true ↔ ∃ b : g.Block, var ∈ solution.top.get b := by
  have exposed (b : g.Block) : var ∈ exposedUses [] (g.body b) ↔ UsedFirst (g.body b) var := by
    simpa using mem_exposedUses_iff [] (noPhi b)
  have noSlot (s : g.Block) : (g.content.get s).leadingPhis = [] := by
    refine List.takeWhile_eq_nil_iff.mpr fun inside => ?_
    simp [noPhi s _ (List.getElem_mem inside)]
  simp only [isGlobal_iff_exposed, exposed, liveVariables_exact solved]
  constructor
  · rintro ⟨b, used⟩
    exact ⟨b, [], b, .stay b, by simp, .inl used⟩
  · rintro ⟨b, left, c, -, -, used | ⟨-, s, -, phi, listed, -⟩⟩
    · exact ⟨c, used⟩
    · simp [noSlot] at listed

/-- Prints a number twice over, and also on an island that nothing leads to. -/
def printingIsland : Function where
  name := "print"
  body := [
    .label "start",
    .operation { opcode := .const, dest := "a", ty := some .int, value := some (.int 1) },
    .operation { opcode := .add, dest := "b", ty := some .int, args := ["a", "a"] },
    .operation { opcode := .print, args := ["b"] },
    .operation { opcode := .ret },
    .label "island",
    .operation { opcode := .print, args := ["a"] },
    .operation { opcode := .jmp, labels := ["island"] }]

/-- The island makes the number global, so it is live somewhere, though no walk from the entry leads
there. What is only used behind its definition is live nowhere.
-/
theorem isGlobal_iff_live_printingIsland
    : ∃ (g : Cfg) (solution : Solution g.toFlowGraph NameSet),
      Cfg.ofFunction? printingIsland true = .ok g ∧ g.solve g.liveVariables 3 = .ok solution
        ∧ (∃ b, "a" ∈ solution.top.get b) ∧ ¬ ∃ b, "b" ∈ solution.top.get b := by
  have accepted : (Cfg.ofFunction? printingIsland true).toOption.any (fun g =>
      g.size == 2 && g.blocks.all (fun b => (g.body b).all fun op => !op.isPhi)
        && (g.globals []).names == ["a"]) = true := by cbv
  obtain ⟨g, graph, accepted⟩ := exists_eq_ok_of_any accepted
  simp only [Bool.and_eq_true, beq_iff_eq, List.all_eq_true, Bool.not_eq_true'] at accepted
  obtain ⟨⟨size, noPhi⟩, names⟩ := accepted
  obtain ⟨solution, solved⟩ :=
    Cfg.exists_solve_eq_ok g.isUnion_liveVariables (by omega : g.size + 1 ≤ 3)
  have live := Cfg.isGlobal_iff_live (fun b => noPhi b (g.mem_blocks b)) solved []
  refine ⟨g, solution, graph, solved, (live "a").mp ?_, fun somewhere => ?_⟩
  · simp [Globals.isGlobal_iff, names]
  · simpa [Globals.isGlobal_iff, names] using (live "b").mpr somewhere

-----------------------------------------------------------------------------------------
-- Phis at the iterated frontier
-----------------------------------------------------------------------------------------

/-- A set has the frontiers of the given blocks and of its own, as a table lists them. -/
def FlowGraph.ClosedUnder (g : FlowGraph) (frontiers : BlockTable g) (start blocks : Set g.Block)
    : Prop :=
  ∀ a ∈ start ∪ blocks, ∀ b : g.Block, (frontiers.get a).contains b = true → b ∈ blocks

/-- Whatever frontiers are given, the iterated frontier of some blocks is the least set that has
their frontiers and its own.
-/
theorem FlowGraph.isLeast_closedUnder {g : FlowGraph} (frontiers : BlockTable g) (start : BlockSet)
    : IsLeast {blocks | g.ClosedUnder frontiers {b | start.contains b = true} blocks}
        {b | (g.iteratedFrontier frontiers start).contains b = true} := by
  constructor
  · intro a source b listed
    exact frontier_subset_iteratedFrontier source listed
  · intro blocks closed b found
    exact iteratedFrontier_induction (P := (· ∈ blocks)) (fun a given => closed a (.inl given))
      (fun a known => closed a (.inr known)) b found

namespace Globals

variable {g : Cfg} (globals : Globals g)

/-- The blocks that define a variable. -/
def definingBlocks (var : String) : Set g.Block :=
  {b | ∃ d ∈ globals.defs, d.var = var ∧ d.block = b}

/-- The blocks with a phi for a global variable are the least set with the frontiers of the blocks
that define it and of its own members. Without a definition no block has one.
-/
theorem isLeast_placement (frontiers : BlockTable g.toFlowGraph) {var : String}
    (global : var ∈ globals.names)
    : IsLeast {blocks | g.ClosedUnder frontiers (globals.definingBlocks var) blocks}
        {b : g.Block | var ∈ (globals.placement frontiers).varsAt b} := by
  have sources
      : globals.definingBlocks var = {b : g.Block | (globals.defBlocks var).contains b = true} := by
    ext b
    exact contains_defBlocks.symm
  have defined {b : g.Block}
      (found : (g.iteratedFrontier frontiers (globals.defBlocks var)).contains b = true)
      : globals.isDefined var = true := by
    by_contra undefined
    refine FlowGraph.iteratedFrontier_induction (P := fun _ => False) (fun a start => ?_) ?_ b found
    · obtain ⟨d, listed, same, -⟩ := contains_defBlocks.mp start
      exact absurd (isDefined_iff.mpr ⟨d, listed, same⟩) undefined
    · exact fun _ none => none.elim
  have placed : {b : g.Block | var ∈ (globals.placement frontiers).varsAt b}
      = {b : g.Block |
          (g.iteratedFrontier frontiers (globals.defBlocks var)).contains b = true} := by
    ext b
    rw [Set.mem_ofPred_eq, mem_varsAt, isGlobal_iff]
    exact ⟨fun there => there.2.2, fun found => ⟨global, defined found, found⟩⟩
  rw [sources, placed]
  exact FlowGraph.isLeast_closedUnder frontiers (globals.defBlocks var)

/-- Phis stand in front of the operations of a block, as they are inserted one after another, each
with one slot for every predecessor, in the order of these. The blocks with one for a global
variable are the least set with the frontiers of the blocks that define it and of its own members,
and none of them has two.
-/
theorem bodyWithPhis_exact (unique : globals.names.Nodup) (frontiers : BlockTable g.toFlowGraph)
    : ∃ phis : g.Block → List Operation,
      (∀ b, globals.bodyWithPhis (globals.placement frontiers) b = phis b ++ g.body b)
        ∧ (globals.insertPhis frontiers).body = globals.bodyWithPhis (globals.placement frontiers)
        ∧ (∀ b, ∀ phi ∈ phis b, phi.isPhi = true ∧ phi.labels = (g.preds b).map g.label
          ∧ ∃ var ∈ globals.names, phi.dest = some var
            ∧ phi.args = List.replicate (g.preds b).length var)
        ∧ ∀ var ∈ globals.names,
          IsLeast {blocks | g.ClosedUnder frontiers (globals.definingBlocks var) blocks}
              {b | ∃ phi ∈ phis b, phi.dest = some var}
            ∧ ∀ b, (∃ phi ∈ phis b, phi.dest = some var) →
              (phis b).countP (fun phi => phi.dest == some var) = 1 := by
  have placed {b : g.Block} {var : String}
      : (∃ phi ∈ ((globals.placement frontiers).varsAt b).map (globals.blankPhi b),
          phi.dest = some var) ↔ var ∈ (globals.placement frontiers).varsAt b := by
    simp [blankPhi]
  refine ⟨fun b => ((globals.placement frontiers).varsAt b).map (globals.blankPhi b),
    fun b => rfl, congrArg Inserting.body (globals.insertPhis_eq frontiers), ?shape, ?placement⟩
  case shape =>
    intro b phi listed
    obtain ⟨var, there, rfl⟩ := List.mem_map.mp listed
    refine ⟨rfl, rfl, var, isGlobal_iff.mp (mem_varsAt.mp there).1, rfl, ?_⟩
    simp [blankPhi]
  case placement =>
    intro var global
    simp only [placed]
    refine ⟨globals.isLeast_placement frontiers global, fun b there => ?_⟩
    rw [List.countP_map]
    exact List.count_eq_one_of_mem (varsAt_nodup unique b) there

end Globals

/-- Adds two numbers to each other for as long as a condition holds. -/
def addingWhile : Function where
  name := "add"
  params := [{ name := "x", ty := .int }, { name := "y", ty := .int }, { name := "c", ty := .bool }]
  body := [
    .label "start",
    .label "loop",
    .operation { opcode := .add, dest := "x", ty := some .int, args := ["x", "y"] },
    .operation { opcode := .add, dest := "y", ty := some .int, args := ["y", "x"] },
    .operation { opcode := .br, args := ["c"], labels := ["done", "loop"] },
    .label "done",
    .operation { opcode := .print, args := ["x"] },
    .operation { opcode := .print, args := ["y"] }]

/-- The loop is in its own frontier, so it gets one phi for each of the numbers. The condition is
only defined in the entry, which has no frontier, and gets none.
-/
theorem bodyWithPhis_exact_addingWhile
    : ∃ (g : Cfg) (loop : g.Block) (phis : g.Block → List Operation),
      Cfg.ofFunction? addingWhile = .ok g
        ∧ (∀ b, (g.globals addingWhile.params).bodyWithPhis
            ((g.globals addingWhile.params).placement g.domTree.frontiers) b = phis b ++ g.body b)
        ∧ (∀ var ∈ ["x", "y"], (phis loop).countP (fun phi => phi.dest == some var) = 1)
        ∧ ∀ b, ¬ ∃ phi ∈ phis b, phi.dest = some "c" := by
  have accepted : (Cfg.ofFunction? addingWhile).toOption.any (fun g =>
      let globals := g.globals addingWhile.params
      globals.names == ["x", "y", "c"] && g.domTree.frontiers.get g.entry == .empty
        && (globals.defsOf "c").all (fun d => d.block == g.entry)
        && g.blocks.any fun loop => (g.domTree.frontiers.get loop).contains loop
          && ["x", "y"].all fun var => (globals.defsOf var).any fun d => d.block == loop)
      = true := by cbv
  obtain ⟨g, graph, accepted⟩ := exists_eq_ok_of_any accepted
  simp only [Bool.and_eq_true, beq_iff_eq, List.any_eq_true, List.all_eq_true,
    Globals.defsOf, List.mem_filter, and_imp] at accepted
  obtain ⟨⟨⟨names, none⟩, onlyEntry⟩, loop, -, around, defined⟩ := accepted
  obtain ⟨phis, bodies, -, -, placed⟩ := (g.globals addingWhile.params).bodyWithPhis_exact
    (g.nodup_names_globals addingWhile.params) g.domTree.frontiers
  refine ⟨g, loop, phis, graph, bodies, fun var number => ?_, fun b there => ?_⟩
  · obtain ⟨⟨closed, -⟩, once⟩ := placed var (names ▸ List.mem_append_left ["c"] number)
    obtain ⟨d, ⟨listed, same⟩, here⟩ := defined var number
    exact once loop (closed loop (.inl ⟨d, listed, same, here⟩) loop around)
  · obtain ⟨⟨-, least⟩, -⟩ := placed "c" (by simp [names])
    refine absurd (least (a := ∅) ?_ there) (Set.notMem_empty b)
    rintro a (⟨d, listed, same, rfl⟩ | outside) c beyond
    · simp [onlyEntry d listed same, none] at beyond
    · exact outside.elim

end ThreeAddress
