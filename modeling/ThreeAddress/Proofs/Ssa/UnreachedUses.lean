import ThreeAddress.Proofs.Dataflow.MaybeDefined
import ThreeAddress.Proofs.Ssa.Positions
import ThreeAddress.Proofs.Ssa.Scopes
import ThreeAddress.Proofs.Ssa.Visits

/-! A conversion fails exactly on uses that no definition reaches. A renamed variable has a version
in scope at the top of a block exactly when a definition of it reaches that place: both hold when it
is a parameter, or when some walk leads there from a block that defines it.
-/

namespace ThreeAddress

-----------------------------------------------------------------------------------------
-- Versions in scope at the top of a block
-----------------------------------------------------------------------------------------

namespace RenamePlan

variable {plan : RenamePlan} {params : List Param} {versions : Versions} {var : String}
  {b c : plan.cfg.Block}

/-- A variable is defined above a block: it is a parameter, or a block that strictly dominates this
one defines it, perhaps by a phi.
-/
def DefinedAbove (plan : RenamePlan) (params : List Param) (var : String) (b : plan.cfg.Block)
    : Prop :=
  (∃ p ∈ params, p.name = var)
    ∨ ∃ d, plan.cfg.StrictlyPathDominates d b ∧ var ∈ plan.definedIn d

/-- Above the entry there are only parameters. -/
theorem definedAbove_entry
    : plan.DefinedAbove params var plan.cfg.entry ↔ ∃ p ∈ params, p.name = var := by
  refine ⟨fun above => above.resolve_right ?_, .inl⟩
  rintro ⟨d, strict, -⟩
  exact strict.1 strict.2.eq_entry

/-- Above a block is what its immediate dominator defines, and what is above that. -/
theorem definedAbove_of_immediatelyDominates (dom : plan.cfg.ImmediatelyDominates b c)
    : plan.DefinedAbove params var c ↔ var ∈ plan.definedIn b ∨ plan.DefinedAbove params var b := by
  constructor
  · rintro (param | ⟨d, strict, defined⟩)
    · exact .inr (.inl param)
    · by_cases same : d = b
      · exact .inl (same ▸ defined)
      · exact .inr (.inr ⟨d, ⟨same, dom.2 d strict⟩, defined⟩)
  · rintro (defined | param | ⟨d, strict, defined⟩)
    · exact .inr ⟨b, dom.1, defined⟩
    · exact .inl param
    · exact .inr ⟨d, strict.trans_left dom.1.2, defined⟩

/-- A definition brings a version of its variable into scope and takes none out. -/
theorem stack_define_ne_nil_iff (versions : Versions) (dest : String)
    (renamed : plan.isRenamed var = true)
    : (plan.define versions dest).2.1.stack var ≠ [] ↔ var = dest ∨ versions.stack var ≠ [] := by
  by_cases same : dest = var
  · subst same
    simp [define_of_isRenamed renamed, Versions.stack_fresh]
  · rw [stack_define_of_ne versions same]
    simp [Ne.symm same]

/-- Definitions one after another do so too, by induction on the variables. -/
theorem stack_defineAll_ne_nil_iff (versions : Versions) (vars : List String)
    (renamed : plan.isRenamed var = true)
    : (plan.defineAll versions vars).2.1.stack var ≠ [] ↔ var ∈ vars ∨ versions.stack var ≠ [] := by
  induction vars generalizing versions with
  | nil => simp [defineAll]
  | cons first rest ih =>
      rw [defineAll_cons, ih, stack_define_ne_nil_iff versions first renamed, List.mem_cons,
        or_assoc, or_left_comm]

/-- The versions that a block finds are of those variables that are defined above it. -/
def Supplies (plan : RenamePlan) (params : List Param) (versions : Versions) (b : plan.cfg.Block)
    : Prop :=
  ∀ var, plan.isRenamed var = true →
    (versions.stack var ≠ [] ↔ plan.DefinedAbove params var b)

/-- What a block leaves supplies the blocks that it immediately dominates. -/
theorem Supplies.below (supplied : plan.Supplies params versions b) (placed : plan.PhisRenamed)
    {block : RenamedBlock} {pushed : List String}
    (ok : plan.renameBlock versions b = .ok (block, pushed))
    (dom : plan.cfg.ImmediatelyDominates b c)
    : plan.Supplies params block.exit c := by
  intro var renamed
  have exit := plan.stack_defineAll_ne_nil_iff versions (plan.definedIn b) renamed
  rw [renameBlock_defines placed ok] at exit
  rw [exit, supplied var renamed, definedAbove_of_immediatelyDominates dom]

/-- The versions of the parameters supply the entry. -/
theorem supplies_entry {params' : List Param} {initial : Versions} {pushed : List String}
    (ok : plan.renameParams .empty params = (params', initial, pushed))
    : plan.Supplies params initial plan.cfg.entry := by
  intro var renamed
  have defined := plan.renameParams_eq .empty params
  rw [ok] at defined
  have start := plan.stack_defineAll_ne_nil_iff .empty (params.map Param.name) renamed
  rw [defined] at start
  rw [start, definedAbove_entry]
  simp

-----------------------------------------------------------------------------------------
-- Where renaming fails
-----------------------------------------------------------------------------------------

/-- A use that is refused is of a renamed variable without a version in scope. -/
theorem renameUse_eq_error {arg : String} (failed : plan.renameUse versions arg = .error var)
    : arg = var ∧ plan.isRenamed var = true ∧ versions.stack var = [] := by
  rw [renameUse] at failed
  split at failed
  · next renamed =>
      cases current : versions.current? arg with
      | some name => simp [current] at failed
      | none =>
          obtain rfl : arg = var := by simpa [current] using failed
          exact ⟨rfl, renamed, List.head?_eq_none_iff.mp current⟩
  · cases failed

/-- Of some uses one is refused, by induction on the uses. -/
theorem mapM_renameUse_eq_error {args : List String}
    (failed : args.mapM (plan.renameUse versions) = .error var)
    : var ∈ args ∧ plan.isRenamed var = true ∧ versions.stack var = [] := by
  induction args with
  | nil => cases failed
  | cons arg rest ih =>
      rw [List.mapM_cons] at failed
      cases first : plan.renameUse versions arg with
      | error other =>
          rw [first] at failed
          obtain rfl := Except.error.inj failed
          obtain ⟨rfl, renamed, none⟩ := renameUse_eq_error first
          exact ⟨List.mem_cons_self, renamed, none⟩
      | ok name =>
          cases others : rest.mapM (plan.renameUse versions) with
          | ok names =>
              rw [first, others] at failed
              cases failed
          | error other =>
              rw [first, others] at failed
              obtain rfl := Except.error.inj failed
              obtain ⟨used, refused⟩ := ih others
              exact ⟨List.mem_cons_of_mem _ used, refused⟩

/-- Operations are refused because one of them uses a renamed variable that has no version in front
of them and that none before it defines. By induction on the operations.
-/
theorem renameBody_eq_error {ops : List Operation}
    (failed : plan.renameBody versions ops = .error var)
    : ∃ index op, ops[index]? = some op ∧ var ∈ op.args ∧ Untouched (ops.take index) var
        ∧ plan.isRenamed var = true ∧ versions.stack var = [] := by
  induction ops generalizing versions with
  | nil => cases failed
  | cons op rest ih =>
      rw [renameBody_cons] at failed
      cases uses : op.args.mapM (plan.renameUse versions) with
      | error other =>
          rw [uses] at failed
          obtain rfl := Except.error.inj failed
          obtain ⟨used, refused⟩ := mapM_renameUse_eq_error uses
          exact ⟨0, op, rfl, used, by simp [Untouched], refused⟩
      | ok args =>
          cases below : plan.renameBody (plan.defineDest versions op.dest).2.1 rest with
          | ok renamed =>
              simp only [uses, below, Except.bind] at failed
              cases failed
          | error other =>
              simp only [uses, below, Except.bind] at failed
              obtain rfl := Except.error.inj failed
              obtain ⟨index, user, found, used, untouched, renamed, none⟩ := ih below
              have here : op.dest ≠ some other ∧ versions.stack other = [] := by
                cases result : op.dest with
                | none => exact ⟨by simp, by rwa [result] at none⟩
                | some dest =>
                    rw [result, defineDest_some] at none
                    have defined := plan.stack_define_ne_nil_iff versions dest renamed
                    grind
              exact ⟨index + 1, user, found, used, List.forall_mem_cons.mpr ⟨here.1, untouched⟩,
                renamed, here.2⟩

/-- A block is refused because of a use of a renamed variable that has no version at the top of the
block, no phi in it, and no definition in front of the use.
-/
theorem renameBlock_eq_error (placed : plan.PhisRenamed) {fault : AnalysisError}
    (failed : plan.renameBlock versions b = .error fault)
    : ∃ index op var, (plan.cfg.body b)[index]? = some op ∧ var ∈ op.args
        ∧ Untouched ((plan.cfg.body b).take index) var ∧ plan.isRenamed var = true
        ∧ var ∉ plan.placement.varsAt b ∧ versions.stack var = []
        ∧ fault = .undefinedVariable plan.cfg.func (plan.cfg.label b) var := by
  rw [renameBlock] at failed
  cases renamed : plan.renameBody (renamePhis versions (plan.placement.varsAt b)).2
      (plan.cfg.body b) with
  | ok result => simp [renamed] at failed
  | error var =>
      obtain ⟨index, op, found, used, untouched, isRenamed, none⟩ := renameBody_eq_error renamed
      have inside := plan.stack_defineAll_ne_nil_iff versions (plan.placement.varsAt b) isRenamed
      rw [renamePhis_eq versions (placed b)] at inside
      simp only [none, ne_eq, not_true_eq_false, false_iff, not_or, not_not] at inside
      exact ⟨index, op, var, found, used, untouched, isRenamed, inside.1, inside.2,
        by simpa [renamed] using failed.symm⟩

/-- The versions of the variables that are defined above a block are passed on to the blocks that it
immediately dominates.
-/
theorem passedOn_supplies (plan : RenamePlan) (placed : plan.PhisRenamed) (params : List Param)
    : Visiting.PassedOn plan fun _ stack b => ∀ var, plan.isRenamed var = true →
        (stack var ≠ [] ↔ plan.DefinedAbove params var b) where
  later supplied := supplied
  below supplied renamed dom := Supplies.below supplied placed renamed dom

end RenamePlan

-----------------------------------------------------------------------------------------
-- Conversions that fail
-----------------------------------------------------------------------------------------

namespace Cfg

variable {g : Cfg} {params : List Param} {config : SsaConfig} {var : String} {b : g.Block}

/-- Where a variable has a phi it may have been defined, since every frontier is ahead of the block
that it belongs to.
-/
theorem maybeDefined_of_mem_varsAt (source : g.preds g.entry = [])
    (placed : var ∈ (g.renamePlan params config).placement.varsAt b)
    : g.MaybeDefined params var b := by
  have ahead {a c : g.Block} (listed : (g.domTree.frontiers.get a).contains c = true)
      : g.Precedes a c :=
    ((FlowGraph.contains_frontiers_domTree source a c).mp listed).precedes
  obtain ⟨-, -, found⟩ := Globals.mem_varsAt.mp placed
  refine FlowGraph.iteratedFrontier_induction (P := fun b => g.MaybeDefined params var b)
    (fun a start c listed => ?_) (fun a known c listed => known.of_precedes (ahead listed)) b found
  rcases mem_defs_globals.mp (Globals.contains_defBlocks.mp start) with ⟨-, param⟩ | defined
  · exact .inl param
  · exact .inr ⟨a, defined, ahead listed⟩

/-- Some operation of a block uses a variable that no operation in front of it defines and that no
definition reaches the block for.
-/
def UsesUnreached (g : Cfg) (solution : Solution g.toFlowGraph DefSet) (b : g.Block) (var : String)
    : Prop :=
  (∃ index op, (g.body b)[index]? = some op ∧ var ∈ op.args
      ∧ Untouched ((g.body b).take index) var)
    ∧ ∀ d ∈ solution.top.get b, d.var ≠ var

end Cfg

/-- A global variable may have been defined before a block exactly when it has a phi there or is
defined above. On a walk from a block that defines it, either the end has a phi, or a block on the
walk that defines it strictly dominates the end.
-/
theorem RenamePlan.Sound.maybeDefined_iff {plan : RenamePlan} (sound : plan.Sound)
    (reached : ∀ b, plan.cfg.Reachable b) {params : List Param}
    (ahead
      : ∀ b : plan.cfg.Block, ∀ var ∈ plan.placement.varsAt b,
          plan.cfg.MaybeDefined params var b)
    {var : String} (global : plan.globals.isGlobal var = true) (b : plan.cfg.Block)
    : plan.cfg.MaybeDefined params var b
      ↔ var ∈ plan.placement.varsAt b ∨ plan.DefinedAbove params var b := by
  constructor
  · rintro (param | ⟨c, result, left, walk, moves⟩)
    · exact .inr (.inl param)
    · have closed : plan.cfg.HasFrontiers {a | var ∈ (plan.cfg.body a).filterMap Operation.dest}
          {a : plan.cfg.Block | var ∈ plan.placement.varsAt a} :=
        fun a known d => sound.frontier_phi var global a d (List.mem_append.mpr known.symm)
      rcases closed.mem_or_exists_dominator reached walk moves (.inl result) with
        placed | ⟨d, -, known, strict⟩
      · exact .inl placed
      · exact .inr (.inr ⟨d, strict, List.mem_append.mpr known.symm⟩)
  · rintro (placed | param | ⟨d, strict, defined⟩)
    · exact ahead b var placed
    · exact .inl param
    · rcases List.mem_append.mp defined with placed | result
      · exact (ahead d var placed).of_precedes strict.precedes
      · exact .inr ⟨d, result, strict.precedes⟩

/-- In a finished renaming every block finds the versions of the variables that are defined above
it. By induction up the tree.
-/
theorem Renaming.Complete.supplies {plan : RenamePlan} {state : Renaming plan} {initial : Versions}
    (complete : state.Complete initial) (placed : plan.PhisRenamed)
    (reached : ∀ b, plan.cfg.Reachable b) {params : List Param}
    (start : plan.Supplies params initial plan.cfg.entry) (b : plan.cfg.Block)
    : plan.Supplies params (state.blockAt b).entry b := by
  induction bound : plan.cfg.level b using Nat.strongRecOn generalizing b with
  | ind n ih =>
      intro var renamed
      by_cases top : b = plan.cfg.entry
      · subst top
        rw [complete.start]
        exact start var renamed
      · obtain ⟨d, dom⟩ := (reached b).exists_idom top
        obtain ⟨pushed, block⟩ := complete.renamed d
        rw [complete.below d b dom]
        exact (ih _ (bound ▸ dom.1.level_lt) d rfl).below placed block dom var renamed

/-- A variable that a block uses and that no operation in front of the use defines is global. -/
theorem RenamePlan.Sound.global_of_untouched {plan : RenamePlan} (sound : plan.Sound)
    {b : plan.cfg.Block} {index : Nat} {op : Operation} {var : String}
    (found : (plan.cfg.body b)[index]? = some op) (used : var ∈ op.args)
    (untouched : Untouched ((plan.cfg.body b).take index) var)
    : plan.globals.isGlobal var = true := by
  rcases exposed_or_defined [] found used with exposed | none | defined
  · exact sound.exposed_global b var exposed
  · exact absurd none List.not_mem_nil
  · obtain ⟨earlier, front, result⟩ := List.mem_filterMap.mp defined
    exact absurd result (untouched earlier front)

/-- A conversion that succeeds has no use that no definition reaches: at such a use the variable
would have a version in scope, so it has a phi in the block or is defined above.
-/
theorem Converts.not_usesUnreached {f f' : Function} {config : SsaConfig} {plan : RenamePlan}
    {initial : Versions} {state : Renaming plan}
    (conversion : Converts f config f' plan initial state)
    (source : plan.cfg.preds plan.cfg.entry = []) {visits : Nat}
    {solution : Solution plan.cfg.toFlowGraph DefSet}
    (solved : plan.cfg.solve (plan.cfg.reachingDefinitions f.params .kill) visits = .ok solution)
    (b : plan.cfg.Block) (var : String)
    : ¬ plan.cfg.UsesUnreached solution b var := by
  rintro ⟨⟨index, op, found, used, untouched⟩, unreached⟩
  have complete := conversion.complete
  have reached := Cfg.reachable_of_ok conversion.graph
  have sound := conversion.sound (Function.branchesDeclared_of_preds_eq_nil conversion.graph source)
  have ahead : ∀ b : plan.cfg.Block, ∀ var ∈ plan.placement.varsAt b,
      plan.cfg.MaybeDefined f.params var b := by
    have planned : ∀ b : plan.cfg.Block,
        ∀ var ∈ (plan.cfg.renamePlan f.params config).placement.varsAt b,
          plan.cfg.MaybeDefined f.params var b :=
      fun b var => Cfg.maybeDefined_of_mem_varsAt source
    rwa [conversion.plan_eq] at planned
  have global := sound.global_of_untouched found used untouched
  have renamed : plan.isRenamed var = true := by
    rw [RenamePlan.isRenamed, global, Bool.true_or]
  obtain ⟨pushed, params⟩ := conversion.params
  have supplied := complete.supplies sound.phisRenamed reached (RenamePlan.supplies_entry params) b
  obtain ⟨inside, -, ⟨later, body⟩, versions⟩ := complete.versionsAt_eq sound.phisRenamed b index
  obtain ⟨-, -, -, -, visible⟩ := RenamePlan.renameBody_getElem? body found
  rw [← versions] at visible
  have inScope := (plan.stack_defineAll_ne_nil_iff (state.blockAt b).entry _ renamed).mp
    (List.ne_nil_of_mem (visible var used renamed))
  rw [List.mem_append, supplied var renamed] at inScope
  have above : var ∈ plan.placement.varsAt b ∨ plan.DefinedAbove f.params var b := by
    refine inScope.imp_left fun defined => defined.resolve_right fun front => ?_
    obtain ⟨earlier, listed, result⟩ := List.mem_filterMap.mp front
    exact untouched earlier listed result
  obtain ⟨d, reaches, same⟩ := (Cfg.exists_mem_top_iff (reached b) solved).mpr
    ((sound.maybeDefined_iff reached ahead global b).mpr above)
  exact unreached d reaches same

/-- Renaming a function fails in a block, which it enters with the versions of all variables that
are defined above.
-/
theorem RenamePlan.rename_eq_error {plan : RenamePlan} (placed : plan.PhisRenamed)
    {params : List Param} {fault : AnalysisError}
    (failed : plan.rename plan.cfg.domTree params = .error fault)
    : ∃ b versions, plan.Supplies params versions b
        ∧ plan.renameBlock versions b = .error fault := by
  obtain ⟨last, b, more, leads, top, refused⟩ := Visiting.exists_leads_of_rename_eq_error failed
  have start : plan.Supplies params (Visiting.start plan params).versions plan.cfg.entry :=
    supplies_entry rfl
  have due := (passedOn_supplies plan placed params).due_leads placed leads ⟨start, rfl⟩
  rw [top] at due
  exact ⟨b, last.versions, due.1, refused⟩

/-- A conversion of a function without phis that is accepted fails only where a use is not reached,
and the failure names the block and the variable.
-/
theorem Function.exists_usesUnreached_of_error {f : Function} {g : Cfg} {config : SsaConfig}
    {fault : AnalysisError} (noPhi : f.hasPhi = false) (graph : Cfg.ofFunction? f = .ok g)
    (source : g.preds g.entry = []) {visits : Nat} {solution : Solution g.toFlowGraph DefSet}
    (solved : g.solve (g.reachingDefinitions f.params .kill) visits = .ok solution)
    (failed : f.toSsa config = .error fault)
    : ∃ b var, g.UsesUnreached solution b var
        ∧ fault = .undefinedVariable f.name (g.label b) var := by
  have sound := Cfg.sound_renamePlan source f.params config
  have reached := Cfg.reachable_of_ok graph
  have named : g.func = f.name := by
    obtain ⟨-, -, rfl, -⟩ := Cfg.ofFunction?_eq_ok.mp graph
    rfl
  have notRenamed : (g.renamePlan f.params config).rename g.domTree f.params = .error fault := by
    rw [toSsa_eq_rename noPhi graph] at failed
    cases renamed : (g.renamePlan f.params config).rename g.domTree f.params with
    | error other => simpa [renamed, Except.map] using failed
    | ok result => simp [renamed, Except.map] at failed
  obtain ⟨b, versions, supplied, refused⟩ :=
    RenamePlan.rename_eq_error sound.phisRenamed notRenamed
  obtain ⟨index, op, var, found, used, untouched, renamed, absent, none, rfl⟩ :=
    RenamePlan.renameBlock_eq_error sound.phisRenamed refused
  refine ⟨b, var, ⟨⟨index, op, found, used, untouched⟩, fun d reaches same => ?_⟩, named ▸ rfl⟩
  have global := sound.global_of_untouched found used untouched
  have defined := (sound.maybeDefined_iff reached
    (fun b var => Cfg.maybeDefined_of_mem_varsAt source) global b).mp
      ((Cfg.exists_mem_top_iff (reached b) solved).mp ⟨d, reaches, same⟩)
  exact defined.elim absent fun above => (supplied var renamed).mpr above none

/-- Conversions fail exactly on uses that no definition reaches. A function without phis that is
accepted, with no edge to its entry, is refused with an undefined variable exactly when some
operation uses a variable that no operation in front of it in its block defines and that no
definition reaches the block for; the failure is about such a use. Otherwise it is converted.
-/
theorem Function.toSsa_fails_iff_usesUnreached {f : Function} {g : Cfg} (noPhi : f.hasPhi = false)
    (graph : Cfg.ofFunction? f = .ok g) (source : g.preds g.entry = []) (config : SsaConfig)
    : ((¬ ∃ label var, f.toSsa config = .error (.undefinedVariable f.name label var)) →
          ∃ f' summary, f.toSsa config = .ok (f', summary))
        ∧ ∀ (visits : Nat) (solution : Solution g.toFlowGraph DefSet),
          g.solve (g.reachingDefinitions f.params .kill) visits = .ok solution →
            ((∃ label var, f.toSsa config = .error (.undefinedVariable f.name label var))
                ↔ ∃ b var, g.UsesUnreached solution b var)
              ∧ ∀ label var, f.toSsa config = .error (.undefinedVariable f.name label var) →
                ∃ b, g.label b = label ∧ g.UsesUnreached solution b var := by
  constructor
  · intro defined
    cases converted : f.toSsa config with
    | ok result => exact ⟨result.1, result.2, rfl⟩
    | error fault =>
        obtain ⟨solution, solved⟩ := Cfg.exists_solve_eq_ok
          (g.isUnion_reachingDefinitions f.params .kill) (Nat.le_refl _)
        obtain ⟨b, var, -, rfl⟩ :=
          exists_usesUnreached_of_error noPhi graph source solved converted
        exact absurd ⟨g.label b, var, converted⟩ defined
  · intro visits solution solved
    have fails {fault : AnalysisError} (failed : f.toSsa config = .error fault) :=
      exists_usesUnreached_of_error noPhi graph source solved failed
    refine ⟨⟨?refused, ?unreached⟩, ?place⟩
    case refused =>
      rintro ⟨label, var, failed⟩
      obtain ⟨b, var, uses, -⟩ := fails failed
      exact ⟨b, var, uses⟩
    case unreached =>
      rintro ⟨b, var, uses⟩
      cases converted : f.toSsa config with
      | error fault =>
          obtain ⟨b, var, -, rfl⟩ := fails converted
          exact ⟨g.label b, var, rfl⟩
      | ok result =>
          obtain ⟨plan, initial, state, conversion⟩ := toSsa_eq_ok converted
          obtain rfl : g = plan.cfg := Except.ok.inj (graph.symm.trans conversion.graph)
          exact absurd uses (conversion.not_usesUnreached source solved b var)
    case place =>
      intro label var failed
      obtain ⟨b, var, uses, same⟩ := fails failed
      cases same
      exact ⟨b, rfl, uses⟩

/-- Prints a number that is set on one of two ways only. -/
def settingOnOneWay : Function where
  name := "set"
  params := [{ name := "c", ty := .bool }]
  body := [
    .label "start",
    .operation { opcode := .br, args := ["c"], labels := ["join", "set"] },
    .label "set",
    .operation { opcode := .const, dest := "a", ty := some .int, value := some (.int 1) },
    .label "join",
    .operation { opcode := .print, args := ["a"] }]

/-- Prints a number in front of the operation that sets it. -/
def settingTooLate : Function where
  name := "late"
  body := [
    .label "start",
    .label "end",
    .operation { opcode := .print, args := ["a"] },
    .operation { opcode := .const, dest := "a", ty := some .int, value := some (.int 1) }]

/-- A definition that reaches a use on one way is enough, though it does not dominate the use. One
that is only behind the use is not.
-/
theorem toSsa_fails_iff_usesUnreached_settings
    : (∃ f' summary, settingOnOneWay.toSsa = .ok (f', summary))
      ∧ ∃ label var, settingTooLate.toSsa = .error (.undefinedVariable "late" label var) := by
  have everyUse : (Cfg.ofFunction? settingOnOneWay).toOption.any (fun g => g.preds g.entry == []
      && (g.solve (g.reachingDefinitions settingOnOneWay.params .kill)).toOption.any fun solution =>
        g.blocks.all fun b => (g.body b).all fun op => op.args.all fun var =>
          (solution.top.get b).toList.any fun d => d.var == var) = true := by cbv
  have lateUse : (Cfg.ofFunction? settingTooLate).toOption.any (fun g => g.preds g.entry == []
      && (g.solve (g.reachingDefinitions settingTooLate.params .kill)).toOption.any fun solution =>
        g.blocks.any fun b => (g.body b).head?.any (fun op => op.args == ["a"])
          && (solution.top.get b).toList.all fun d => d.var != "a") = true := by cbv
  constructor
  · obtain ⟨g, graph, found⟩ := exists_eq_ok_of_any everyUse
    obtain ⟨source, found⟩ := Bool.and_eq_true_iff.mp found
    obtain ⟨solution, solved, reached⟩ := exists_eq_ok_of_any found
    simp only [List.all_eq_true, List.any_eq_true, beq_iff_eq, Std.ExtTreeSet.mem_toList]
      at source reached
    obtain ⟨succeeds, precise⟩ := Function.toSsa_fails_iff_usesUnreached (by decide) graph source {}
    refine succeeds fun failed => ?_
    obtain ⟨b, var, ⟨index, op, here, used, -⟩, unreached⟩ := (precise _ solution solved).1.mp failed
    obtain ⟨d, reaches, same⟩ := reached b (g.mem_blocks b) op (List.mem_of_getElem? here) var used
    exact unreached d reaches same
  · obtain ⟨g, graph, found⟩ := exists_eq_ok_of_any lateUse
    obtain ⟨source, found⟩ := Bool.and_eq_true_iff.mp found
    obtain ⟨solution, solved, unreached⟩ := exists_eq_ok_of_any found
    simp only [List.any_eq_true, Bool.and_eq_true, Option.any_eq_true, List.all_eq_true, beq_iff_eq,
      bne_iff_ne, Std.ExtTreeSet.mem_toList] at source unreached
    obtain ⟨b, -, ⟨op, first, args⟩, unreached⟩ := unreached
    obtain ⟨-, precise⟩ := Function.toSsa_fails_iff_usesUnreached (by decide) graph source {}
    refine (precise _ solution solved).1.mpr
      ⟨b, "a", ⟨0, op, ?_, by simp [args], by simp [Untouched]⟩, unreached⟩
    rwa [← List.head?_eq_getElem?]

end ThreeAddress
