import ThreeAddress.Proofs.Execution.ConversionStep

/-! Conversion to static single assignment form preserves what a function shows: both start abreast
and stay so in every step.
-/

namespace ThreeAddress

variable {V : Type}

namespace Faithful

variable {f f' : Function} {config : SsaConfig} {plan : RenamePlan} {initial : Versions}
  {state : Renaming plan}

/-- Both functions start abreast in the entry, where every global variable that is no parameter is
undefined and stands for the marker.
-/
theorem start (faithful : Faithful f config f' plan initial state) (I : Interpretation V)
    (args : List V)
    : Keeps plan state f.definitions I.undef (f.start I args) (f'.start I args) := by
  have sound := faithful.toConverts.sound faithful.declared
  have complete := faithful.toConverts.complete
  obtain ⟨pushed, params⟩ := faithful.params
  have blank : Mirrors plan f.definitions I.undef .empty (fun var => plan.isRenamed var = true)
      (fun _ => I.undef) (fun _ => I.undef) := {
    marker := rfl
    known := fun var renamed => .inl renamed
    value := fun _ _ => rfl
  }
  have listed : ∀ p ∈ f.params, p.name ∈ f.definitions := by
    intro p member
    exact List.mem_append_left _ (List.mem_map_of_mem member)
  have free : plan.config.undefName
      ∉ (plan.renameParams .empty f.params).1.map Param.name := by
    rw [params]
    exact fun member => faithful.free (List.mem_append_left _ member)
  have bound := blank.params Versions.coherent_empty faithful.apart listed free args
  rw [params] at bound
  have here : f.entryBody = .label (plan.cfg.label plan.cfg.entry)
      :: ((plan.cfg.body plan.cfg.entry).map .operation
        ++ plan.cfg.assembleFrom plan.cfg.body (plan.cfg.entry + 1)) := by
    rw [Function.entryBody_eq_assemble faithful.graph]
    exact Cfg.assembleFrom_block plan.cfg.body plan.cfg.entry
  have here' : f'.entryBody = .label (plan.cfg.label plan.cfg.entry)
      :: ((state.body plan.cfg.entry).map .operation
        ++ plan.cfg.assembleFrom state.body (plan.cfg.entry + 1)) := by
    rw [Function.entryBody, faithful.toConverts.not_needsEntry faithful.declared,
      if_neg (by simp), faithful.body]
    exact Cfg.assembleFrom_block state.body plan.cfg.entry
  rw [Function.start, here, Function.start, here']
  apply faithful.enter plan.cfg.entry []
  · rw [Renaming.phis_entry sound, sound.entry_free]
    rfl
  · refine bound.mono (fun var live => .inl ?_) (fun var _ => ?_)
    · rw [RenamePlan.isRenamed, live.1, Bool.true_or]
    · rw [RenamePlan.nameOf, RenamePlan.nameOf, Versions.current?, Versions.current?,
        complete.start]

/-- After every number of steps both executions are abreast, by induction on the steps. -/
theorem run (faithful : Faithful f config f' plan initial state) (I : Interpretation V)
    (args : List V) (n : Nat)
    : Keeps plan state f.definitions I.undef (f.run I args n) (f'.run I args n) := by
  induction n with
  | zero => exact faithful.start I args
  | succ n ih => exact faithful.advance I ih

end Faithful

/-- Conversion to static single assignment form preserves what a function shows and how it stands
after every number of steps. Its branches must go to labels that it declares, no variable that is
kept may be spelled like a version, and the marker must be no variable of the result.
-/
theorem Function.toSsa_preserves_runs {f f' : Function} {config : SsaConfig} {summary : SsaSummary}
    {g : Cfg} (declared : f.BranchesDeclared) (graph : Cfg.ofFunction? f = .ok g)
    (ok : f.toSsa config = .ok (f', summary))
    (apart : (g.renamePlan f.params config).KeptApart f.definitions)
    (free : config.undefName ∉ f'.definitions)
    (I : Interpretation V) (args : List V) (n : Nat)
    : (f'.run I args n).trace = (f.run I args n).trace
      ∧ (f'.run I args n).status = (f.run I args n).status := by
  obtain ⟨plan, initial, state, conversion⟩ := toSsa_eq_ok ok
  obtain rfl : g = plan.cfg := Except.ok.inj (graph.symm.trans conversion.graph)
  have sameConfig : plan.config = config := congrArg RenamePlan.config conversion.plan_eq.symm
  have faithful : Faithful f config f' plan initial state := {
    conversion with
    declared
    apart := conversion.plan_eq ▸ apart
    free := sameConfig ▸ free
  }
  exact (faithful.run I args n).observe

/-- Counts up while it swaps two variables, through a local copy, and prints one of them. -/
def swappingLoop : Function where
  name := "swap"
  params := [{ name := "step", ty := .int }]
  body := [
    .label "start",
    .operation { opcode := .const, dest := "a", ty := some .int, value := some (.int 1) },
    .operation { opcode := .const, dest := "b", ty := some .int, value := some (.int 2) },
    .operation { opcode := .const, dest := "i", ty := some .int, value := some (.int 0) },
    .label "loop",
    .operation { opcode := .id, dest := "copy", ty := some .int, args := ["a"] },
    .operation { opcode := .id, dest := "a", ty := some .int, args := ["b"] },
    .operation { opcode := .id, dest := "b", ty := some .int, args := ["copy"] },
    .operation { opcode := .add, dest := "i", ty := some .int, args := ["i", "step"] },
    .operation { opcode := .print, args := ["a"] },
    .operation { opcode := .br, args := ["i"], labels := ["loop", "done"] },
    .label "done",
    .operation { opcode := .ret, args := ["b"] }]

/-- The swapping loop runs to its end and shows the same after conversion, with phis that swap. -/
theorem toSsa_preserves_runs_swappingLoop
    : ∃ f' summary, swappingLoop.toSsa = .ok (f', summary) ∧ f'.hasPhi = true
        ∧ (swappingLoop.run .sums [1] 24).status = .finished
        ∧ (f'.run .sums [1] 24).trace = (swappingLoop.run .sums [1] 24).trace := by
  have accepted : (Cfg.ofFunction? swappingLoop).isOk = true := by cbv
  have converted : (swappingLoop.toSsa).toOption.any (fun result =>
      result.1.hasPhi && !result.1.definitions.contains defaultUndefName) = true := by cbv
  have finished : (swappingLoop.run .sums [1] 24).status = .finished := by cbv
  have declared : swappingLoop.BranchesDeclared := by
    unfold Function.BranchesDeclared
    decide
  have dotless : ∀ var ∈ swappingLoop.definitions, '.' ∉ var.toList := by decide
  obtain ⟨g, graph⟩ := exists_eq_ok_of_isOk accepted
  obtain ⟨⟨f', summary⟩, ok, passed⟩ := exists_eq_ok_of_any converted
  simp only [Bool.and_eq_true, Bool.not_eq_true', List.contains_eq_mem, decide_eq_false_iff_not]
    at passed
  have same := Function.toSsa_preserves_runs declared graph ok
    (RenamePlan.keptApart_of_dotless _ dotless) passed.2 .sums [1] 24
  exact ⟨f', summary, ok, passed.1, finished, same.1⟩

end ThreeAddress
