import ThreeAddress.Proofs.Graph.Joins
import ThreeAddress.Proofs.Ssa.ConvertedGraph
import ThreeAddress.Proofs.Ssa.Origins

/-! A variable gets phis exactly where it has to. The blocks with a phi for it are the least set of
joins of its definitions and the entry.
-/

namespace ThreeAddress

/-- The blocks that define a variable. Parameters are defined in the entry. -/
def Cfg.definingBlocks (g : Cfg) (params : List Param) (var : String) : Set g.Block :=
  {b | (b = g.entry ∧ ∃ p ∈ params, p.name = var) ∨ ∃ op ∈ g.body b, op.dest = some var}

/-- Phis for a global variable with a definition are placed in the least set of joins of the blocks
that define it and the entry.
-/
theorem Cfg.isLeast_varsAt {g : Cfg} (source : g.preds g.entry = [])
    (reach : ∀ b : g.Block, g.Reachable b) (params : List Param) {var : String}
    (global : (g.globals params).isGlobal var = true)
    (defined : (g.globals params).isDefined var = true)
    : IsLeast {joins | g.HasJoins (insert g.entry (g.definingBlocks params var)) joins}
        {b : g.Block | var ∈ ((g.globals params).placement g.domTree.frontiers).varsAt b} := by
  have placed : {b : g.Block | var ∈ ((g.globals params).placement g.domTree.frontiers).varsAt b}
      = {b : g.Block | (g.iteratedFrontier g.domTree.frontiers
          ((g.globals params).defBlocks var)).contains b = true} := by
    ext b
    simp [Globals.mem_varsAt, global, defined]
  have sources : g.definingBlocks params var
      = {b : g.Block | ((g.globals params).defBlocks var).contains b = true} := by
    ext b
    simp [definingBlocks, Globals.contains_defBlocks, mem_defs_globals]
  rw [placed, sources]
  exact FlowGraph.isLeast_iteratedFrontier source reach _

/-- A converted function has a phi for a version of a variable exactly in the blocks where one has
been placed for the variable.
-/
theorem Converts.mem_varsAt_iff {f f' : Function} {config : SsaConfig} {plan : RenamePlan}
    {initial : Versions} {state : Renaming plan}
    (conversion : Converts f config f' plan initial state) {b : plan.cfg.Block} {var : String}
    : var ∈ plan.placement.varsAt b
      ↔ ∃ phi ∈ state.body b, phi.isPhi = true
        ∧ ∃ number, phi.dest = some (versionName var number) := by
  have complete := conversion.complete
  have named {other dest : String}
      (paired : (other, dest) ∈ (plan.placement.varsAt b).zip (state.blockAt b).phiDests)
      : ∃ number, dest = versionName other number := by
    obtain ⟨pushed, renamed⟩ := complete.renamed b
    obtain ⟨inside, later, names, -⟩ := RenamePlan.renameBlock_eq_ok renamed
    have dests : (RenamePlan.renamePhis _ _).1 = (state.blockAt b).phiDests :=
      congrArg Prod.fst names
    exact RenamePlan.phi_origin (dests ▸ paired)
  constructor
  · intro placed
    obtain ⟨index, place⟩ := List.mem_iff_getElem?.mp placed
    obtain ⟨inside, -⟩ := List.getElem?_eq_some_iff.mp place
    rw [← complete.length_phiDests] at inside
    have paired : (var, (state.blockAt b).phiDests[index])
        ∈ (plan.placement.varsAt b).zip (state.blockAt b).phiDests :=
      List.mem_iff_getElem?.mpr
        ⟨index, List.getElem?_zip_eq_some.mpr ⟨place, List.getElem?_eq_getElem inside⟩⟩
    obtain ⟨number, dest⟩ := named paired
    refine ⟨state.phi b var _, ?_, rfl, number, congrArg some dest⟩
    rw [complete.body_eq, Renaming.phis, ← List.map_uncurry_zip_eq_zipWith]
    exact List.mem_append_left _ (List.mem_map.mpr ⟨_, paired, rfl⟩)
  · rintro ⟨phi, listed, isPhi, number, dest⟩
    obtain ⟨other, name, paired, rfl⟩ := conversion.exists_phi listed isPhi
    obtain rfl : name = versionName var number := Option.some.inj dest
    obtain ⟨number', same⟩ := named paired
    exact (versionName_inj same).1 ▸ (List.of_mem_zip paired).1

/-- Phis are placed for a global variable with a definition in exactly the least set of joins of the
blocks that define it and the entry, and a conversion that succeeds puts phis for versions of the
variable into these blocks and no others.
-/
theorem Function.toSsa_phis_at_least_joins {f : Function} {g : Cfg}
    (graph : Cfg.ofFunction? f = .ok g) (source : g.preds g.entry = []) {var : String}
    (global : (g.globals f.params).isGlobal var = true) (defined : var ∈ f.definitions)
    (config : SsaConfig)
    : IsLeast {joins | g.HasJoins (insert g.entry (g.definingBlocks f.params var)) joins}
        {b : g.Block | var ∈ (g.renamePlan f.params config).placement.varsAt b}
      ∧ ∀ f' summary, f.toSsa config = .ok (f', summary) →
          ∃ bodyOf : g.Block → List Operation, f'.body = g.assemble bodyOf
            ∧ ∀ b : g.Block, var ∈ (g.renamePlan f.params config).placement.varsAt b
                ↔ ∃ phi ∈ bodyOf b, phi.isPhi = true
                  ∧ ∃ number, phi.dest = some (versionName var number) := by
  refine ⟨Cfg.isLeast_varsAt source (Cfg.reachable_of_ok graph) f.params global
    ((Cfg.isDefined_globals graph).mpr defined), fun f' summary ok => ?_⟩
  obtain ⟨plan, initial, state, conversion⟩ := toSsa_eq_ok ok
  obtain rfl : g = plan.cfg := Except.ok.inj (graph.symm.trans conversion.graph)
  rw [conversion.plan_eq]
  exact ⟨state.body, conversion.body, fun b => conversion.mem_varsAt_iff⟩

/-- Doubles a number for as long as a condition holds. -/
def doublingWhile : Function where
  name := "double"
  params := [{ name := "x", ty := .int }, { name := "c", ty := .bool }]
  body := [
    .label "start",
    .label "loop",
    .operation { opcode := .add, dest := "x", ty := some .int, args := ["x", "x"] },
    .operation { opcode := .br, args := ["c"], labels := ["done", "loop"] },
    .label "done",
    .operation { opcode := .print, args := ["x"] }]

/-- The parameter and the number that the loop defines join at the loop, and nowhere else, as only
the loop leads to the end.
-/
theorem toSsa_phis_at_least_joins_doublingWhile
    : ∃ (f' : Function) (summary : SsaSummary) (g : Cfg) (loop : g.Block)
        (bodyOf : g.Block → List Operation),
      Cfg.ofFunction? doublingWhile = .ok g ∧ doublingWhile.toSsa = .ok (f', summary)
        ∧ f'.body = g.assemble bodyOf
        ∧ ∀ b, b = loop ↔ ∃ phi ∈ bodyOf b, phi.isPhi = true
          ∧ ∃ number, phi.dest = some (versionName "x" number) := by
  have accepted : (Cfg.ofFunction? doublingWhile).toOption.any (fun g =>
      g.preds g.entry == [] && (g.globals doublingWhile.params).isGlobal "x"
        && g.blocks.any fun loop => g.blocks.any fun done =>
          g.blocks == [g.entry, loop, done] && g.preds loop == [g.entry, loop]
            && g.preds done == [loop] && (g.body loop).head?.bind Operation.dest == some "x")
      = true := by cbv
  have converted : doublingWhile.toSsa.isOk = true := by cbv
  obtain ⟨g, graph, accepted⟩ := exists_eq_ok_of_any accepted
  simp only [Bool.and_eq_true, beq_iff_eq, List.any_eq_true, Option.bind_eq_some_iff] at accepted
  obtain ⟨⟨source, global⟩, loop, -, done, -, ⟨⟨blocks, around⟩, behind⟩, op, first, result⟩ :=
    accepted
  obtain ⟨⟨f', summary⟩, ok⟩ := exists_eq_ok_of_isOk converted
  have distinct : [g.entry, loop, done].Nodup := blocks ▸ List.nodup_finRange g.size
  simp only [List.nodup_cons, List.mem_cons, List.not_mem_nil, or_false, not_or] at distinct
  obtain ⟨⟨notLoop, -⟩, notDone, -⟩ := distinct
  have edge {p b : g.Block} : b ∈ g.succs p ↔ p ∈ g.preds b := (g.mem_preds b p).symm
  have joins : IsLeast
      {joins | g.HasJoins (insert g.entry (g.definingBlocks doublingWhile.params "x")) joins}
      {loop} := by
    constructor
    · intro a _ b _ _ f converge
      obtain ⟨p, predP, q, predQ, apart⟩ := converge.exists_preds
      have place : f ∈ [g.entry, loop, done] := blocks ▸ g.mem_blocks f
      simp only [List.mem_cons, List.not_mem_nil, or_false] at place
      rcases place with rfl | rfl | rfl
      · simp [source] at predP
      · rfl
      · rw [behind, List.mem_singleton] at predP predQ
        exact absurd (predP ▸ apart (predP.trans predQ.symm)) notDone
    · rintro closed hasJoins _ rfl
      have here : _ ∈ g.definingBlocks doublingWhile.params "x" :=
        .inr ⟨op, List.mem_of_head? first, result⟩
      refine hasJoins g.entry (.inl (.inl rfl)) _ (.inl (.inr here)) notLoop _
        ⟨[g.entry], [_], .step (edge.mpr ?_) (.stay _), by simp, .step (edge.mpr ?_) (.stay _),
          by simp, ?_⟩
      · simp [around]
      · simp [around]
      · simp
  obtain ⟨least, output⟩ := Function.toSsa_phis_at_least_joins graph source global (by decide) {}
  obtain ⟨bodyOf, body, exact⟩ := output f' summary ok
  have only := Set.ext_iff.mp (joins.unique least)
  exact ⟨f', summary, g, loop, bodyOf, graph, ok, body, fun b => (only b).trans (exact b)⟩

end ThreeAddress
