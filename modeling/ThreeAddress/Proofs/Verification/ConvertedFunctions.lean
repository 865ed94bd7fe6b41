import ThreeAddress.Proofs.Ssa.ConvertedGraph
import ThreeAddress.Proofs.Ssa.Origins
import ThreeAddress.Proofs.Ssa.Scopes
import ThreeAddress.Proofs.Verification.Acceptance
import ThreeAddress.Proofs.Verification.Severities

/-! Converted functions verify: what conversion gives is in single assignment form, and a
verification finds nothing else in it than types that already differ before.
-/

namespace ThreeAddress

namespace Converts

variable {f f' : Function} {config : SsaConfig} {plan : RenamePlan} {initial : Versions}
  {state : Renaming plan}

-----------------------------------------------------------------------------------------
-- Single assignment form
-----------------------------------------------------------------------------------------

/-- A name that is in scope before the first block, or defined where all paths to a position pass,
has what a use at this position needs.
-/
theorem fits (conversion : Converts f config f' plan initial state) {name : String}
    {b : plan.cfg.Block} {index : Nat}
    (known
      : (∃ var, name ∈ initial.stack var)
        ∨ ∃ d before, state.Defines name d before
          ∧ (d = b ∧ before < index ∨ plan.cfg.StrictlyPathDominates d b))
    : f'.IsParam name
      ∨ ∃ d before, (plan.cfg.withBodies state.body).DefinedAt name d before
        ∧ ((plan.cfg.withBodies state.body).Reachable b
          → (plan.cfg.withBodies state.body).Passes d before b index) := by
  rcases known with ⟨var, member⟩ | ⟨d, before, ⟨op, found, result⟩, place⟩
  · exact .inl (List.mem_map.mp (conversion.mem_params_of_initial member))
  · have found' : ((plan.cfg.withBodies state.body).body d)[before]? = some op := by
      rw [← found]
      exact congrArg (·[before]?) (Cfg.body_withBodies state.body d)
    refine .inr ⟨d, before, ⟨op, found', result⟩, fun _ left walk => ?_⟩
    rcases place with ⟨same, early⟩ | strict
    · exact .inr ⟨same, early⟩
    · exact .inl ((strict.2.2 left walk).resolve_right strict.1)

/-- The phis of a converted function are those that have been placed. -/
theorem phi_of_isPhi (conversion : Converts f config f' plan initial state)
    {b : plan.cfg.Block} {op : Operation} (member : op ∈ state.body b) (phi : op.isPhi = true)
    : ∃ var ∈ plan.placement.varsAt b, ∃ dest, op = state.phi b var dest := by
  rw [conversion.complete.body_eq, List.mem_append] at member
  rcases member with listed | other
  · obtain ⟨var, dest, paired, same⟩ := Renaming.exists_of_mem_phis listed
    exact ⟨var, (List.of_mem_zip paired).1, dest, same⟩
  · have none := conversion.no_phi_in_renamed b op other
    simp [phi] at none

/-- In the slots of a phi stand names that are defined on all paths to the ends of the edges. -/
theorem slot_fits (conversion : Converts f config f' plan initial state)
    (declared : f.BranchesDeclared) {b p : plan.cfg.Block} {op : Operation}
    (member : op ∈ state.body b) (phi : op.isPhi = true) {arg : String}
    (slot : (arg, plan.cfg.label p) ∈ op.slots) (named : arg ≠ plan.config.undefName)
    : f'.IsParam arg
      ∨ ∃ d before, (plan.cfg.withBodies state.body).DefinedAt arg d before
        ∧ ((plan.cfg.withBodies state.body).Reachable p
          → (plan.cfg.withBodies state.body).Passes d before p (state.body p).length) := by
  obtain ⟨var, -, dest, rfl⟩ := conversion.phi_of_isPhi member phi
  rw [Renaming.slots_phi] at slot
  obtain ⟨q, -, same⟩ := List.mem_map.mp slot
  obtain ⟨rfl, label⟩ := Prod.mk.inj same
  obtain rfl := (Cfg.proper_of_ok conversion.graph).label_injective q p label
  apply conversion.fits
  rcases conversion.complete.slot_defined (conversion.sound declared)
    (Cfg.reachable_of_ok conversion.graph) named with param | ⟨d, before, defined, dom⟩
  · exact .inl ⟨var, param⟩
  · refine .inr ⟨d, before, defined, ?_⟩
    by_cases own : d = q
    · subst own
      obtain ⟨op, found, -⟩ := defined
      exact .inl ⟨rfl, (List.getElem?_eq_some_iff.mp found).1⟩
    · exact .inr ⟨own, dom⟩

/-- A converted function is in single assignment form. -/
theorem ssaForm (conversion : Converts f config f' plan initial state)
    (declared : f.BranchesDeclared) (apart : plan.KeptApart f.definitions)
    (once : (plan.kept f.definitions).Nodup)
    : (plan.cfg.withBodies state.body).SsaForm f' plan.config.undefName := by
  have complete := conversion.complete
  have sound := conversion.sound declared
  have reached := Cfg.reachable_of_ok conversion.graph
  have bodies (b : plan.cfg.Block) : (plan.cfg.withBodies state.body).body b
      = state.phis b ++ (state.blockAt b).body :=
    (Cfg.body_withBodies state.body b).trans (complete.body_eq b)
  refine {
    definitions_nodup := conversion.definitions_nodup apart once
    phis_first := ?_
    entry_free := ?_
    phi_edges := ?_
    uses_defined := ?_
    slots_defined := ?_
  }
  · intro (b : plan.cfg.Block) op member
    rw [bodies b, List.dropWhile_append_of_pos fun op => Renaming.isPhi_of_mem_phis] at member
    exact conversion.no_phi_in_renamed b op ((List.dropWhile_sublist _).subset member)
  · intro op member
    have here := bodies plan.cfg.entry
    rw [Renaming.phis_entry sound, List.nil_append] at here
    exact conversion.no_phi_in_renamed plan.cfg.entry op (here ▸ member)
  · intro (b : plan.cfg.Block) op member phi
    rw [Cfg.body_withBodies state.body b] at member
    obtain ⟨var, -, dest, rfl⟩ := conversion.phi_of_isPhi member phi
    refine ⟨.of_eq ?_, ?_⟩
    · apply List.map_congr_left
      intro p _
      exact (Cfg.label_withBodies state.body p).symm
    · simp [Renaming.phi, Globals.blankPhi]
  · intro (b : plan.cfg.Block) index op found other arg used
    rw [Cfg.body_withBodies state.body b] at found
    exact conversion.fits (complete.use_defined sound reached found other used)
  · intro (b : plan.cfg.Block) op member phi arg (p : plan.cfg.Block) slot named
    rw [Cfg.body_withBodies state.body b] at member
    rw [Cfg.label_withBodies state.body p] at slot
    rw [Cfg.body_withBodies state.body p]
    exact conversion.slot_fits declared member phi slot named

/-- The types in a converted function agree if all definitions of each variable declare the same. -/
theorem slotTypesAgree (conversion : Converts f config f' plan initial state)
    (apart : plan.KeptApart f.definitions)
    (agree
      : ∀ var ty ty', (var, some ty) ∈ f.typedDefinitions → (var, some ty') ∈ f.typedDefinitions →
          ty = ty')
    : (plan.cfg.withBodies state.body).SlotTypesAgree f' plan.config.undefName := by
  intro (b : plan.cfg.Block) op member phi arg listed named expected found typed defined
  rw [Cfg.body_withBodies state.body b] at member
  obtain ⟨var, placed, dest, rfl⟩ := conversion.phi_of_isPhi member phi
  obtain ⟨p, -, rfl⟩ := List.mem_map.mp listed
  have renamed := conversion.phisRenamed b var placed
  exact conversion.slot_type apart agree renamed named typed defined

end Converts

-----------------------------------------------------------------------------------------
-- Verification
-----------------------------------------------------------------------------------------

/-- Converted functions verify. The branches of the function must go to labels that it declares,
and a variable that is kept must have one definition at most and not be spelled like a version.
Then the only findings are types in slots that differ from that of the phi, and there are none of
these either if all definitions of each variable declare the same type.
-/
theorem Function.verifyFunction_toSsa {f f' : Function} {config : SsaConfig} {summary : SsaSummary}
    {g : Cfg} {settings : VerifierConfig} (declared : f.BranchesDeclared)
    (graph : Cfg.ofFunction? f = .ok g) (ok : f.toSsa config = .ok (f', summary))
    (apart : (g.renamePlan f.params config).KeptApart f.definitions)
    (once
      : ∀ var, (g.renamePlan f.params config).isRenamed var = false → f.definitions.count var ≤ 1)
    (full : settings.level = .full) (unlimited : settings.maxDiagnostics = 0)
    (strict : settings.allowUnreachable = false) (marker : settings.undefName = config.undefName)
    : (∀ d ∈ (settings.verifyFunction f').diagnostics, d.code = .phiIncomingTypeMismatch)
      ∧ ((∀ var ty ty', (var, some ty) ∈ f.typedDefinitions →
            (var, some ty') ∈ f.typedDefinitions → ty = ty') →
          (settings.verifyFunction f').diagnostics = []) := by
  obtain ⟨plan, initial, state, conversion⟩ := toSsa_eq_ok ok
  obtain rfl : g = plan.cfg := Except.ok.inj (graph.symm.trans conversion.graph)
  rw [conversion.plan_eq] at apart once
  have sameMarker : settings.undefName = plan.config.undefName :=
    marker.trans (congrArg (fun p => p.config.undefName) conversion.plan_eq)
  have converted : Cfg.ofFunction? f' settings.allowUnreachable
      = .ok (plan.cfg.withBodies state.body) :=
    strict ▸ conversion.graph_converted declared
  have checks : settings.checksDominance = true := by simp [VerifierConfig.checksDominance, full]
  have form := sameMarker ▸ conversion.ssaForm declared apart (RenamePlan.nodup_kept once)
  have errors : ∀ d ∈ (settings.verifyFunction f').diagnostics, d.isError = true := by
    intro d found
    rw [VerifierConfig.diagnostics_verifyFunction converted unlimited] at found
    refine Subject.isError_of_mem_findings _ (fun b => ?_) found
    exact (FlowGraph.isReachable_domTree b).mpr (Cfg.reachable_of_ok conversion.graph b)
  have acceptable (typed : Bool)
      (types : typed = true → (plan.cfg.withBodies state.body).SlotTypesAgree f' settings.undefName)
      : Acceptable typed (settings.verifyFunction f').diagnostics := by
    rw [VerifierConfig.diagnostics_verifyFunction converted unlimited]
    exact (Cfg.acceptable_subject converted checks).mpr ⟨form, types⟩
  constructor
  · intro d found
    exact (acceptable false (by simp) d found (errors d found)).2
  · intro agree
    have types := sameMarker ▸ conversion.slotTypesAgree apart agree
    rw [List.eq_nil_iff_forall_not_mem]
    intro d found
    have mild := acceptable true (fun _ => types) d found (errors d found)
    exact absurd mild.1 (by simp)

/-- Remembers the last number counted, which is defined in the loop only. -/
def lastCounted : Function where
  name := "last"
  params := [{ name := "limit", ty := .int }, { name := "one", ty := .int }]
  body := [
    .label "start",
    .operation { opcode := .const, dest := "i", ty := some .int, value := some (.int 0) },
    .label "loop",
    .operation { opcode := .id, dest := "last", ty := some .int, args := ["i"] },
    .operation { opcode := .add, dest := "i", ty := some .int, args := ["i", "one"] },
    .operation { opcode := .lt, dest := "more", ty := some .bool, args := ["i", "limit"] },
    .operation { opcode := .br, args := ["more"], labels := ["done", "loop"] },
    .label "done",
    .operation { opcode := .print, args := ["last"] },
    .operation { opcode := .ret, args := ["i"] }]

/-- The loop gets phis, one of them with a slot that no definition reaches, and nothing is found. -/
theorem verifyFunction_toSsa_lastCounted
    : ∃ f' summary, lastCounted.toSsa = .ok (f', summary) ∧ summary.phis = 2
        ∧ (VerifierConfig.verifyFunction { maxDiagnostics := 0 } f').diagnostics = [] := by
  have known : (Cfg.ofFunction? lastCounted).toOption.any (fun g =>
      lastCounted.definitions.all fun var =>
        (g.renamePlan lastCounted.params {}).isRenamed var
          || decide (lastCounted.definitions.count var ≤ 1)) = true := by cbv
  have converted : (lastCounted.toSsa).toOption.any (fun result => result.2.phis == 2) = true := by
    cbv
  have declared : lastCounted.BranchesDeclared := by
    unfold Function.BranchesDeclared
    decide
  have dotless : ∀ var ∈ lastCounted.definitions, '.' ∉ var.toList := by decide
  have agree : ∀ x ∈ lastCounted.typedDefinitions, ∀ y ∈ lastCounted.typedDefinitions,
      x.1 = y.1 → x.2 = y.2 := by decide
  obtain ⟨g, graph, counted⟩ := exists_eq_ok_of_any known
  obtain ⟨⟨f', summary⟩, ok, phis⟩ := exists_eq_ok_of_any converted
  simp only [List.all_eq_true, Bool.or_eq_true, decide_eq_true_eq] at counted
  have once (var : String) (kept : (g.renamePlan lastCounted.params {}).isRenamed var = false)
      : lastCounted.definitions.count var ≤ 1 := by
    by_cases listed : var ∈ lastCounted.definitions
    · exact (counted var listed).resolve_left (by simp [kept])
    · rw [List.count_eq_zero_of_not_mem listed]
      exact Nat.zero_le 1
  refine ⟨f', summary, ok, beq_iff_eq.mp phis, ?_⟩
  refine (Function.verifyFunction_toSsa declared graph ok
    (RenamePlan.keptApart_of_dotless _ dotless) once rfl rfl rfl rfl).2 ?_
  intro var ty ty' first second
  exact Option.some.inj (agree _ first _ second rfl)

end ThreeAddress
