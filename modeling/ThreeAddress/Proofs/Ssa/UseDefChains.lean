import Mathlib.Data.List.Induction
import ThreeAddress.Proofs.Dataflow.ReachingDefinitions
import ThreeAddress.Proofs.Ssa.ConvertedGraph
import ThreeAddress.Proofs.Ssa.IntroducedNames
import ThreeAddress.Proofs.Ssa.Positions
import ThreeAddress.Proofs.Verification.ValidSsa

/-! Use-def chains: following the slots of phis from the name at a use leads to the definitions of
the variable that reach this use, and to no others.
-/

namespace ThreeAddress

/-- A name of a converted function comes from a definition of the function. Either the definition
got this name, or the name is that of a phi and one in its slots comes from the definition; the
marker comes from none. The converted function has the given bodies in the blocks of the graph.
-/
inductive Cfg.ComesFrom (g : Cfg) (f f' : Function) (bodyOf : g.Block → List Operation)
  (undefName : String)
  : String → Definition → Prop
  | param {index : Nat} {p p' : Param} (old : f.params[index]? = some p)
    (new : f'.params[index]? = some p')
    : g.ComesFrom f f' bodyOf undefName p'.name { var := p.name, site := .param }
  | operation {b : g.Block} {index : Nat} {op op' : Operation} {var name : String}
    (old : (g.body b)[index]? = some op) (result : op.dest = some var)
    (new : ((bodyOf b).filter fun op => !op.isPhi)[index]? = some op')
    (named : op'.dest = some name)
    : g.ComesFrom f f' bodyOf undefName name { var, site := .operation b index }
  | phi {b : g.Block} {op : Operation} {name arg : String} {d : Definition}
    (listed : op ∈ bodyOf b) (isPhi : op.isPhi = true) (named : op.dest = some name)
    (slot : arg ∈ op.args) (defined : arg ≠ undefName)
    (source : g.ComesFrom f f' bodyOf undefName arg d)
    : g.ComesFrom f f' bodyOf undefName name d

-----------------------------------------------------------------------------------------
-- Variables and versions that matter at a position
-----------------------------------------------------------------------------------------

namespace RenamePlan

variable {plan : RenamePlan} {b : plan.cfg.Block} {index : Nat} {op : Operation} {var : String}

/-- A variable can be used at a position of a block: it is global, or defined in front of the
position in the same block.
-/
def Usable (plan : RenamePlan) (b : plan.cfg.Block) (index : Nat) (var : String) : Prop :=
  plan.globals.isGlobal var = true
    ∨ var ∈ ((plan.cfg.body b).take index).filterMap Operation.dest

theorem Usable.global (usable : plan.Usable b 0 var) : plan.globals.isGlobal var = true := by
  simpa [Usable] using usable

/-- A variable that an operation does not define was usable in front of it. -/
theorem Usable.before (usable : plan.Usable b (index + 1) var)
    (found : (plan.cfg.body b)[index]? = some op) (other : op.dest ≠ some var)
    : plan.Usable b index var := by
  refine usable.imp_right fun defined => ?_
  rw [List.take_add_one, found, Option.toList_some, List.filterMap_append, List.mem_append]
    at defined
  exact defined.resolve_right (by simpa using other)

/-- The arguments of an operation are usable in front of it. -/
theorem Sound.usable (sound : plan.Sound) (found : (plan.cfg.body b)[index]? = some op)
    (used : var ∈ op.args)
    : plan.Usable b index var := by
  rcases exposed_or_defined [] found used with exposed | none | defined
  · exact .inl (sound.exposed_global b var exposed)
  · exact absurd none List.not_mem_nil
  · exact .inr defined

end RenamePlan

namespace Renaming

variable {plan : RenamePlan} {state : Renaming plan}

/-- The place that defines a name of a variable, where all definitions that it stands for are in a
set: the parameter or the operation itself, or for a phi the definitions of the variable that reach
its block.
-/
inductive Source (state : Renaming plan) (f f' : Function)
  (solution : Solution plan.cfg.toFlowGraph DefSet) (var name : String) (reached : DefSet) : Prop
  | param {index : Nat} {p p' : Param} (old : f.params[index]? = some p)
    (new : f'.params[index]? = some p') (isVar : p.name = var) (named : p'.name = name)
    (here : { var, site := .param } ∈ reached)
  | operation {b : plan.cfg.Block} {index : Nat} {op op' : Operation}
    (old : (plan.cfg.body b)[index]? = some op) (result : op.dest = some var)
    (new : (state.blockAt b).body[index]? = some op') (named : op'.dest = some name)
    (here : { var, site := .operation b index } ∈ reached)
  | phi {b : plan.cfg.Block} {index : Nat}
    (placed : (plan.placement.varsAt b)[index]? = some var)
    (named : (state.blockAt b).phiDests[index]? = some name)
    (here : ∀ d ∈ solution.top.get b, d.var = var → d ∈ reached)

/-- The place stays while no definition of the variable is lost. -/
theorem Source.mono {f f' : Function} {solution : Solution plan.cfg.toFlowGraph DefSet}
    {var name : String} {reached reached' : DefSet}
    (source : state.Source f f' solution var name reached)
    (still : ∀ d ∈ reached, d.var = var → d ∈ reached')
    : state.Source f f' solution var name reached' := by
  cases source with
  | param old new isVar named here => exact .param old new isVar named (still _ here rfl)
  | operation old result new named here =>
      exact .operation old result new named (still _ here rfl)
  | phi placed named here => exact .phi placed named fun d top var => still d (here d top var) var

/-- The newest version of the variable of a definition comes from the definition. -/
def Finds (state : Renaming plan) (f f' : Function) (versions : Versions) (d : Definition) : Prop :=
  ∃ name, versions.current? d.var = some name
    ∧ plan.cfg.ComesFrom f f' state.body plan.config.undefName name d

end Renaming

/-- A conversion that renames all variables of a function with declared branches only, and a
solution for the definitions that reach its blocks.
-/
structure Traced (f : Function) (config : SsaConfig) (f' : Function) (plan : RenamePlan)
    (initial : Versions) (state : Renaming plan) (solution : Solution plan.cfg.toFlowGraph DefSet)
    : Prop extends Converts f config f' plan initial state where
  declared : f.BranchesDeclared
  renamed : ∀ var ∈ f.variables, plan.isRenamed var = true
  marker : plan.config.undefName = defaultUndefName
  solved : ∃ visits,
    plan.cfg.solve (plan.cfg.reachingDefinitions f.params .kill) visits = .ok solution

namespace Traced

variable {f f' : Function} {config : SsaConfig} {plan : RenamePlan} {initial : Versions}
  {state : Renaming plan} {solution : Solution plan.cfg.toFlowGraph DefSet}
  (traced : Traced f config f' plan initial state solution)

include traced

-----------------------------------------------------------------------------------------
-- Positions
-----------------------------------------------------------------------------------------

theorem isRenamed_dest {b : plan.cfg.Block} {op : Operation} (member : op ∈ plan.cfg.body b)
    {var : String} (result : op.dest = some var)
    : plan.isRenamed var = true := by
  have listed := Function.mem_operations_of_mem_body traced.graph member
  exact traced.renamed var (List.mem_append_left _ (List.mem_append_right _
    (List.mem_filterMap.mpr ⟨op, listed, result⟩)))

/-- The definitions that reach the end of a block reach the tops of those after it. -/
theorem reaching_along_edge {p b : plan.cfg.Block} (edge : b ∈ plan.cfg.succs p) {d : Definition}
    (reaches : d ∈ plan.cfg.reachingAt .kill solution p (plan.cfg.body p).length)
    : d ∈ plan.cfg.reachingAt .kill solution b 0 := by
  obtain ⟨visits, solved⟩ := traced.solved
  apply (Cfg.mem_top_of_solve solved).mpr
  rw [← Cfg.bottom_eq_of_solve solved p] at reaches
  exact .inl ⟨p, (FlowGraph.mem_preds ..).mpr edge, reaches⟩

-----------------------------------------------------------------------------------------
-- Where the newest version is defined
-----------------------------------------------------------------------------------------

/-- The newest version of a parameter before the first block is the name that one parameter got. -/
theorem exists_param {var : String} (listed : var ∈ f.params.map Param.name)
    : ∃ (index : Nat) (p p' : Param), f.params[index]? = some p ∧ f'.params[index]? = some p'
        ∧ p.name = var ∧ initial.current? var = some p'.name := by
  obtain ⟨pushed, params⟩ := traced.params
  have defined := plan.renameParams_eq .empty f.params
  rw [params] at defined
  have renamed := traced.renamed var (List.mem_append_left _ (List.mem_append_left _ listed))
  obtain ⟨index, name, old, new, newest⟩ :=
    RenamePlan.exists_current?_defineAll .empty renamed listed
  rw [defined] at new newest
  rw [List.getElem?_map, Option.map_eq_some_iff] at old new
  obtain ⟨p, old, isVar⟩ := old
  obtain ⟨p', new, rfl⟩ := new
  exact ⟨index, p, p', old, new, isVar, newest⟩

/-- What is in scope before the first block is a parameter. -/
theorem source_of_initial {var name : String} (current : initial.current? var = some name)
    : state.Source f f' solution var name
        (plan.cfg.reachingAt .kill solution plan.cfg.entry 0) := by
  by_cases listed : var ∈ f.params.map Param.name
  · obtain ⟨index, p, p', old, new, isVar, newest⟩ := traced.exists_param listed
    obtain ⟨visits, solved⟩ := traced.solved
    refine .param old new isVar (Option.some.inj (newest.symm.trans current)) ?_
    exact (Cfg.mem_top_of_solve solved).mpr
      (.inr ⟨rfl, mem_paramDefs.mpr ⟨rfl, p, List.mem_of_getElem? old, isVar⟩⟩)
  · obtain ⟨pushed, params⟩ := traced.params
    have defined := plan.renameParams_eq .empty f.params
    have empty := plan.stack_defineAll_of_not_mem .empty listed
    rw [params] at defined
    rw [defined, Versions.stack_empty] at empty
    rw [Versions.current?, empty] at current
    cases current

/-- In a block the newest version of a variable that can be used is defined where it was at the top,
or by the last operation in front that defines the variable. By induction on the operations.
-/
theorem source_in_block {b : plan.cfg.Block}
    (top
      : ∀ var name, plan.globals.isGlobal var = true →
          (state.versionsAt b 0).current? var = some name →
          state.Source f f' solution var name (plan.cfg.reachingAt .kill solution b 0))
    {index : Nat} (inside : index ≤ (plan.cfg.body b).length) {var name : String}
    (usable : plan.Usable b index var)
    (current : (state.versionsAt b index).current? var = some name)
    : state.Source f f' solution var name (plan.cfg.reachingAt .kill solution b index) := by
  induction index with
  | zero => exact top var name usable.global current
  | succ index ih =>
      have found := List.getElem?_eq_getElem inside
      generalize (plan.cfg.body b)[index] = op at found
      by_cases result : op.dest = some var
      · obtain ⟨op', new, -, -, dest⟩ := traced.complete.exists_renamed traced.phisRenamed found
        obtain ⟨name', named, newest⟩ := dest var result
          (traced.isRenamed_dest (List.mem_of_getElem? found) result)
        obtain rfl := Option.some.inj (current.symm.trans newest)
        refine .operation found result new named ((Cfg.mem_defsBefore_succ found).mpr ?_)
        rw [if_pos result]
      · rw [Versions.current?, Renaming.versionsAt_succ_of_ne found result] at current
        refine (ih (by omega) (usable.before found result) current).mono fun d reaches same => ?_
        apply (Cfg.mem_defsBefore_succ found).mpr
        rwa [if_neg (same ▸ result)]

/-- The entry starts with the versions of the parameters. -/
theorem stack_entry (var : String)
    : (state.versionsAt plan.cfg.entry 0).stack var = initial.stack var := by
  have absent : var ∉ plan.placement.varsAt plan.cfg.entry := by
    simp [(traced.toConverts.sound traced.declared).entry_free]
  rw [Renaming.versionsAt_of_not_mem absent, traced.complete.start]

/-- At the top of a block the newest version of a global variable is that of a phi there, or the
newest one at the end of a block in front. By induction on a walk, from its end.
-/
theorem source_at_top {b : plan.cfg.Block} {var name : String}
    (global : plan.globals.isGlobal var = true)
    (current : (state.versionsAt b 0).current? var = some name)
    : state.Source f f' solution var name (plan.cfg.reachingAt .kill solution b 0) := by
  have complete := traced.complete
  have sound := traced.toConverts.sound traced.declared
  have reached := Cfg.reachable_of_ok traced.graph
  obtain ⟨left, walk⟩ := reached b
  induction left using List.reverseRecOn generalizing b var name with
  | nil =>
      cases walk
      rw [Versions.current?, traced.stack_entry] at current
      exact traced.source_of_initial current
  | append_singleton before p ih =>
      by_cases placed : var ∈ plan.placement.varsAt b
      · obtain ⟨index, name', there, named, newest⟩ :=
          complete.versionsAt_phi traced.phisRenamed placed
        obtain rfl := Option.some.inj (current.symm.trans newest)
        exact .phi there named fun d top _ => top
      · obtain ⟨_, _, last, front, edge⟩ := walk.last.resolve_left (by simp)
        obtain ⟨rfl, same⟩ := List.append_inj' last rfl
        obtain rfl := List.singleton_inj.mp same
        have along := complete.stack_along_edge sound reached edge global placed
        rw [Versions.current?, Renaming.versionsAt_of_not_mem placed, along,
          ← complete.versionsAt_length traced.phisRenamed] at current
        have atEnd := traced.source_in_block (fun _ _ known now => ih known now front)
          (Nat.le_refl _) (.inl global) current
        exact atEnd.mono fun d reaches _ => traced.reaching_along_edge edge reaches

/-- The newest version of a variable that can be used at a position is defined in one of the three
ways, and all definitions that it stands for there reach the position.
-/
theorem source {b : plan.cfg.Block} {index : Nat} (inside : index ≤ (plan.cfg.body b).length)
    {var name : String} (usable : plan.Usable b index var)
    (current : (state.versionsAt b index).current? var = some name)
    : state.Source f f' solution var name (plan.cfg.reachingAt .kill solution b index) :=
  traced.source_in_block (fun _ _ => traced.source_at_top) inside usable current

-----------------------------------------------------------------------------------------
-- Chains lead to definitions that reach
-----------------------------------------------------------------------------------------

theorem accepted : Cfg.ofFunction? f' = .ok (plan.cfg.withBodies state.body) :=
  traced.toConverts.graph_converted traced.declared

/-- All names that the converted function defines are distinct, since none is kept. -/
theorem definitions_nodup : f'.definitions.Nodup := by
  have renamed : ∀ var ∈ f.definitions, plan.isRenamed var = true :=
    fun var listed => traced.renamed var (List.mem_append_left _ listed)
  apply traced.toConverts.definitions_nodup (RenamePlan.keptApart_of_isRenamed renamed)
  rw [RenamePlan.kept_eq_nil renamed]
  exact List.nodup_nil

/-- The version of a phi is defined at the place of the phi. -/
theorem definedAt_phi {b : plan.cfg.Block} {index : Nat} {name : String}
    (named : (state.blockAt b).phiDests[index]? = some name)
    : index < (state.phis b).length
      ∧ (plan.cfg.withBodies state.body).DefinedAt name b index := by
  have dests := congrArg (·[index]?) (traced.complete.map_dest_phis b)
  simp only [List.getElem?_map, named, Option.map_some, Option.map_eq_some_iff] at dests
  obtain ⟨op, found, result⟩ := dests
  have inside := (List.getElem?_eq_some_iff.mp found).1
  refine ⟨inside, op, ?_, result⟩
  rw [Cfg.body_withBodies state.body b, traced.complete.body_eq, List.getElem?_append_left inside]
  exact found

/-- The version of an operation is defined at the place of the operation, behind the phis. -/
theorem definedAt_operation {b : plan.cfg.Block} {index : Nat} {op : Operation} {name : String}
    (found : (state.blockAt b).body[index]? = some op) (named : op.dest = some name)
    : (plan.cfg.withBodies state.body).DefinedAt name b ((state.phis b).length + index) := by
  refine ⟨op, ?_, named⟩
  rw [Cfg.body_withBodies state.body b, traced.complete.body_eq,
    List.getElem?_append_right (by omega), Nat.add_sub_cancel_left]
  exact found

/-- A name that some parameter has is the name of this parameter only. -/
theorem param_of_source {var : String} {reached : DefSet} {index : Nat} {p p' : Param}
    (old : f.params[index]? = some p) (new : f'.params[index]? = some p')
    (source : state.Source f f' solution var p'.name reached)
    : p.name = var ∧ { var, site := .param } ∈ reached := by
  have once := traced.definitions_nodup
  have isParam : f'.IsParam p'.name := ⟨p', List.mem_of_getElem? new, rfl⟩
  cases source with
  | @param other q q' old' new' isVar named here =>
      have inside := (List.getElem?_eq_some_iff.mp new).1
      have same : index = other := by
        refine (List.getElem?_inj (by simpa using inside) (List.nodup_append.mp once).1).mp ?_
        rw [List.getElem?_map, List.getElem?_map, new, new', Option.map_some, Option.map_some,
          named]
      subst same
      obtain rfl := Option.some.inj (old.symm.trans old')
      exact ⟨isVar, here⟩
  | operation _ _ new' named _ =>
      have defined := traced.definedAt_operation new' named
      exact absurd isParam (defined.not_isParam traced.accepted once)
  | phi _ named _ =>
      have defined := (traced.definedAt_phi named).2
      exact absurd isParam (defined.not_isParam traced.accepted once)

/-- A name that some operation defines is the name of this definition only. -/
theorem operation_of_source {var name : String} {reached : DefSet} {b : plan.cfg.Block}
    {index : Nat} {op op' : Operation} (old : (plan.cfg.body b)[index]? = some op)
    (new : (state.blockAt b).body[index]? = some op') (named : op'.dest = some name)
    (source : state.Source f f' solution var name reached)
    : op.dest = some var ∧ { var, site := .operation b index } ∈ reached := by
  have once := traced.definitions_nodup
  have defined := traced.definedAt_operation new named
  cases source with
  | param _ new' _ named' _ =>
      have isParam : f'.IsParam name := ⟨_, List.mem_of_getElem? new', named'⟩
      exact absurd isParam (defined.not_isParam traced.accepted once)
  | operation old' result new' named' here =>
      obtain ⟨rfl, same⟩ :=
        defined.unique traced.accepted once (traced.definedAt_operation new' named')
      obtain rfl := Nat.add_left_cancel same
      obtain rfl := Option.some.inj (old.symm.trans old')
      exact ⟨result, here⟩
  | phi _ named' _ =>
      obtain ⟨inside, defined'⟩ := traced.definedAt_phi named'
      obtain ⟨rfl, same⟩ := defined.unique traced.accepted once defined'
      omega

/-- A name that some phi defines is the name of this phi only. -/
theorem phi_of_source {var other name : String} {reached : DefSet} {b : plan.cfg.Block}
    {index : Nat} (placed : (plan.placement.varsAt b)[index]? = some other)
    (named : (state.blockAt b).phiDests[index]? = some name)
    (source : state.Source f f' solution var name reached)
    : other = var ∧ ∀ d ∈ solution.top.get b, d.var = var → d ∈ reached := by
  have once := traced.definitions_nodup
  obtain ⟨inside, defined⟩ := traced.definedAt_phi named
  cases source with
  | param _ new' _ named' _ =>
      have isParam : f'.IsParam name := ⟨_, List.mem_of_getElem? new', named'⟩
      exact absurd isParam (defined.not_isParam traced.accepted once)
  | operation _ _ new' named' _ =>
      obtain ⟨rfl, same⟩ :=
        defined.unique traced.accepted once (traced.definedAt_operation new' named')
      omega
  | phi placed' named' here =>
      obtain ⟨rfl, rfl⟩ := defined.unique traced.accepted once (traced.definedAt_phi named').2
      exact ⟨Option.some.inj (placed.symm.trans placed'), here⟩

/-- A phi of the converted function stands in the same place as its variable and its version, and
what is in its slots are the newest versions at the ends of the edges.
-/
theorem exists_phi {b : plan.cfg.Block} {op : Operation} (listed : op ∈ state.body b)
    (isPhi : op.isPhi = true)
    : ∃ (index : Nat) (var name : String), (plan.placement.varsAt b)[index]? = some var
        ∧ (state.blockAt b).phiDests[index]? = some name ∧ op = state.phi b var name := by
  obtain ⟨var, name, paired, rfl⟩ := traced.toConverts.exists_phi listed isPhi
  obtain ⟨index, found⟩ := List.mem_iff_getElem?.mp paired
  obtain ⟨placed, named⟩ := List.getElem?_zip_eq_some.mp found
  exact ⟨index, var, name, placed, named, rfl⟩

/-- A chain from the newest version of a variable at a position leads to definitions of the variable
that reach the position. By induction on the chain: in the slot of a phi stands the newest version
at the end of a block, and what reaches that end reaches the phi.
-/
theorem reaches_of_comesFrom {name : String} {d : Definition}
    (chain : plan.cfg.ComesFrom f f' state.body plan.config.undefName name d) {b : plan.cfg.Block}
    {index : Nat} (inside : index ≤ (plan.cfg.body b).length) {var : String}
    (usable : plan.Usable b index var)
    (current : (state.versionsAt b index).current? var = some name)
    : d.var = var ∧ d ∈ plan.cfg.reachingAt .kill solution b index := by
  have complete := traced.complete
  induction chain generalizing b index var with
  | param old new =>
      obtain ⟨rfl, here⟩ := traced.param_of_source old new (traced.source inside usable current)
      exact ⟨rfl, here⟩
  | operation old result new named =>
      rw [traced.toConverts.filter_body] at new
      obtain ⟨same, here⟩ :=
        traced.operation_of_source old new named (traced.source inside usable current)
      obtain rfl := Option.some.inj (result.symm.trans same)
      exact ⟨rfl, here⟩
  | @phi c op name arg d listed isPhi named slot defined _ ih =>
      obtain ⟨place, other, name', placed, version, rfl⟩ := traced.exists_phi listed isPhi
      obtain rfl : name' = name := Option.some.inj named
      obtain ⟨rfl, here⟩ :=
        traced.phi_of_source placed version (traced.source inside usable current)
      obtain ⟨p, edge, rfl⟩ := List.mem_map.mp slot
      have global := (traced.toConverts.sound traced.declared).phi_global c other
        (List.mem_of_getElem? placed)
      rw [complete.slot_eq] at defined ih
      cases newest : (state.blockAt p).exit.current? other with
      | none => simp [newest] at defined
      | some last =>
          rw [newest, Option.getD_some] at ih
          rw [← complete.versionsAt_length traced.phisRenamed] at newest
          obtain ⟨same, atEnd⟩ := ih (Nat.le_refl _) (.inl global) newest
          have top := traced.reaching_along_edge ((FlowGraph.mem_preds ..).mp edge) atEnd
          exact ⟨same, here d top same⟩

-----------------------------------------------------------------------------------------
-- Definitions that reach are led to
-----------------------------------------------------------------------------------------

/-- In a block, definitions that reach a position are found from there, if those that reach the top
are found from the top. By induction on the operations.
-/
theorem finds_in_block {b : plan.cfg.Block} {fact : DefSet}
    (top
      : ∀ d ∈ fact, plan.globals.isGlobal d.var = true →
          state.Finds f f' (state.versionsAt b 0) d)
    {index : Nat} (inside : index ≤ (plan.cfg.body b).length) {d : Definition}
    (reaches : d ∈ plan.cfg.defsBefore .kill b fact index) (usable : plan.Usable b index d.var)
    : state.Finds f f' (state.versionsAt b index) d := by
  induction index with
  | zero => exact top d reaches usable.global
  | succ index ih =>
      have found := List.getElem?_eq_getElem inside
      generalize (plan.cfg.body b)[index] = op at found
      rw [Cfg.mem_defsBefore_succ found] at reaches
      by_cases result : op.dest = some d.var
      · rw [if_pos result] at reaches
        obtain ⟨op', new, -, -, dest⟩ := traced.complete.exists_renamed traced.phisRenamed found
        obtain ⟨name, named, newest⟩ := dest d.var result
          (traced.isRenamed_dest (List.mem_of_getElem? found) result)
        refine ⟨name, newest, ?_⟩
        obtain ⟨var, site⟩ := d
        subst reaches
        exact .operation found result (traced.toConverts.filter_body b ▸ new) named
      · rw [if_neg result] at reaches
        obtain ⟨name, newest, chain⟩ := ih (by omega) reaches (usable.before found result)
        refine ⟨name, ?_, chain⟩
        rw [Versions.current?, Renaming.versionsAt_succ_of_ne found result]
        exact newest

/-- A definition that is found from the end of an edge is what the phi of its variable comes from:
in the slot for the edge stands the newest version there, which is not the marker.
-/
theorem comesFrom_phi {p b : plan.cfg.Block} (edge : b ∈ plan.cfg.succs p) {index : Nat}
    {name : String} {d : Definition}
    (placed : (plan.placement.varsAt b)[index]? = some d.var)
    (named : (state.blockAt b).phiDests[index]? = some name)
    (found : state.Finds f f' (state.blockAt p).exit d)
    : plan.cfg.ComesFrom f f' state.body plan.config.undefName name d := by
  have complete := traced.complete
  obtain ⟨arg, current, chain⟩ := found
  have listed : state.phi b d.var name ∈ state.body b := by
    rw [complete.body_eq]
    refine List.mem_append_left _ (List.mem_iff_getElem?.mpr ⟨index, ?_⟩)
    rw [Renaming.phis, List.getElem?_zipWith, placed, named]
  have slot : arg ∈ (state.phi b d.var name).args := by
    refine List.mem_map.mpr ⟨p, (FlowGraph.mem_preds ..).mpr edge, ?_⟩
    rw [complete.slot_eq, current, Option.getD_some]
  have defined : arg ≠ plan.config.undefName := by
    have coherent := complete.coherent_versionsAt p (plan.cfg.body p).length
    rw [complete.versionsAt_length traced.phisRenamed] at coherent
    obtain ⟨number, -, version⟩ := coherent d.var arg (List.mem_of_head? current)
    have dotless : '.' ∉ plan.config.undefName.toList := by
      rw [traced.marker]
      decide
    exact version ▸ (ne_versionName_of_dotless dotless d.var number).symm
  exact .phi listed rfl rfl slot defined chain

/-- A definition that is found from the end of a block is found from the tops of those after it,
through a phi if there is one for its variable.
-/
theorem finds_along_edge {p b : plan.cfg.Block} (edge : b ∈ plan.cfg.succs p) {d : Definition}
    (global : plan.globals.isGlobal d.var = true)
    (found : state.Finds f f' (state.blockAt p).exit d)
    : state.Finds f f' (state.versionsAt b 0) d := by
  by_cases placed : d.var ∈ plan.placement.varsAt b
  · obtain ⟨index, name, there, named, newest⟩ :=
      traced.complete.versionsAt_phi traced.phisRenamed placed
    exact ⟨name, newest, traced.comesFrom_phi edge there named found⟩
  · have along := traced.complete.stack_along_edge (traced.toConverts.sound traced.declared)
      (Cfg.reachable_of_ok traced.graph) edge global placed
    obtain ⟨name, current, chain⟩ := found
    refine ⟨name, ?_, chain⟩
    rw [Versions.current?, Renaming.versionsAt_of_not_mem placed, along]
    exact current

/-- A parameter is found from the top of the entry. -/
theorem finds_param {d : Definition} (param : d ∈ paramDefs f.params)
    : state.Finds f f' (state.versionsAt plan.cfg.entry 0) d := by
  obtain ⟨var, site⟩ := d
  obtain ⟨rfl, p, listed, name⟩ := mem_paramDefs.mp param
  obtain ⟨index, q, q', old, new, rfl, newest⟩ :=
    traced.exists_param (List.mem_map.mpr ⟨p, listed, name⟩)
  refine ⟨q'.name, ?_, .param old new⟩
  rw [Versions.current?, traced.stack_entry]
  exact newest

/-- Definitions of global variables that reach the top of a block are found from there, since the
solution holds nothing but what merging and transferring give.
-/
theorem finds_at_top {b : plan.cfg.Block} {d : Definition}
    (reaches : d ∈ plan.cfg.reachingAt .kill solution b 0)
    (global : plan.globals.isGlobal d.var = true)
    : state.Finds f f' (state.versionsAt b 0) d := by
  obtain ⟨visits, solved⟩ := traced.solved
  have found := Cfg.solve_induction
    (fun b fact => ∀ d ∈ fact, plan.globals.isGlobal d.var = true →
      state.Finds f f' (state.versionsAt b 0) d)
    (fun b fact => ∀ d ∈ fact, plan.globals.isGlobal d.var = true →
      state.Finds f f' (state.blockAt b).exit d) ?bottom ?merge ?transfer solved
  · exact (found b).1 d reaches global
  case bottom =>
    intro b
    constructor <;>
      exact fun d member => absurd member Std.ExtTreeSet.not_mem_empty
  case merge =>
    intro facts passed b d member known
    rcases Cfg.mem_merged_reachingDefinitions.mp member with ⟨p, edge, atEnd⟩ | ⟨rfl, param⟩
    · exact traced.finds_along_edge ((FlowGraph.mem_preds ..).mp edge) known
        (passed p d atEnd known)
    · exact traced.finds_param param
  case transfer =>
    intro b fact top d member known
    rw [← Cfg.defsBefore_length] at member
    rw [← traced.complete.versionsAt_length traced.phisRenamed]
    exact traced.finds_in_block top (Nat.le_refl _) member (.inl known)

/-- From the newest version of a variable that can be used at a position, chains lead to exactly the
definitions of the variable that reach the position.
-/
theorem comesFrom_iff {b : plan.cfg.Block} {index : Nat}
    (inside : index ≤ (plan.cfg.body b).length) {var name : String}
    (usable : plan.Usable b index var)
    (current : (state.versionsAt b index).current? var = some name) (d : Definition)
    : plan.cfg.ComesFrom f f' state.body plan.config.undefName name d
      ↔ d.var = var ∧ d ∈ plan.cfg.reachingAt .kill solution b index := by
  constructor
  · exact fun chain => traced.reaches_of_comesFrom chain inside usable current
  · rintro ⟨rfl, reaches⟩
    obtain ⟨name', newest, chain⟩ := traced.finds_in_block
      (fun d reaches global => traced.finds_at_top reaches global) inside reaches usable
    obtain rfl := Option.some.inj (newest.symm.trans current)
    exact chain

end Traced

/-- Use-def chains give the reaching definitions. When all variables of a function with declared
branches are renamed, following the slots of phis from the name that the converted function has for
an argument leads to exactly those definitions of the variable that reach the operation.
-/
theorem Function.toSsa_comesFrom_iff_reaching {f f' : Function} {summary : SsaSummary} {g : Cfg}
    {visits : Nat} {solution : Solution g.toFlowGraph DefSet} (declared : f.BranchesDeclared)
    (graph : Cfg.ofFunction? f = .ok g) (ok : f.toSsa { renameLocals := true } = .ok (f', summary))
    (solved : g.solve (g.reachingDefinitions f.params .kill) visits = .ok solution)
    : ∃ bodyOf : g.Block → List Operation, Cfg.ofFunction? f' = .ok (g.withBodies bodyOf)
        ∧ ∀ (b : g.Block) (index : Nat) (op : Operation), (g.body b)[index]? = some op →
            ∃ op' : Operation, ((bodyOf b).filter fun op => !op.isPhi)[index]? = some op'
              ∧ op'.args.length = op.args.length
              ∧ ∀ (k : Nat) (var name : String), op.args[k]? = some var → op'.args[k]? = some name →
                  ∀ d, g.ComesFrom f f' bodyOf defaultUndefName name d
                    ↔ d.var = var ∧ d ∈ g.reachingAt .kill solution b index := by
  obtain ⟨plan, initial, state, conversion⟩ := toSsa_eq_ok ok
  obtain rfl : g = plan.cfg := Except.ok.inj (graph.symm.trans conversion.graph)
  have settings : plan.config = { renameLocals := true } :=
    congrArg RenamePlan.config conversion.plan_eq.symm
  have traced : Traced f { renameLocals := true } f' plan initial state solution := {
    conversion with
    declared
    renamed := fun var listed => conversion.isRenamed_of_renameLocals rfl listed
    marker := congrArg SsaConfig.undefName settings
    solved := ⟨visits, solved⟩
  }
  refine ⟨state.body, traced.accepted, fun b index op found => ?_⟩
  obtain ⟨op', there, length, names, -⟩ :=
    traced.complete.exists_renamed traced.phisRenamed found
  refine ⟨op', (traced.toConverts.filter_body b).symm ▸ there, length, fun k var name old new => ?_⟩
  have used := List.mem_of_getElem? old
  have inside := Nat.le_of_lt (List.getElem?_eq_some_iff.mp found).1
  have listed : var ∈ f.variables :=
    List.mem_append_right _ (List.mem_flatMap.mpr
      ⟨op, Function.mem_operations_of_mem_body graph (List.mem_of_getElem? found), used⟩)
  rw [← traced.marker]
  exact traced.comesFrom_iff inside ((conversion.sound declared).usable found used)
    (names k var name old new (traced.renamed var listed))

/-- Doubles a number for ever. The first definition of the number is in vain. -/
def doublingLoop : Function where
  name := "double"
  body := [
    .label "start",
    .operation { opcode := .const, dest := "x", ty := some .int, value := some (.int 0) },
    .operation { opcode := .const, dest := "x", ty := some .int, value := some (.int 1) },
    .label "loop",
    .operation { opcode := .add, dest := "x", ty := some .int, args := ["x", "x"] },
    .operation { opcode := .jmp, labels := ["loop"] }]

/-- The number that is doubled comes from the second definition and from the doubling itself. -/
theorem toSsa_comesFrom_doublingLoop
    : ∃ (f' : Function) (summary : SsaSummary) (g : Cfg) (bodyOf : g.Block → List Operation)
        (name : String),
      doublingLoop.toSsa { renameLocals := true } = .ok (f', summary)
        ∧ Cfg.ofFunction? f' = .ok (g.withBodies bodyOf)
        ∧ ∀ d, g.ComesFrom doublingLoop f' bodyOf defaultUndefName name d
          ↔ d = { var := "x", site := .operation 0 1 }
            ∨ d = { var := "x", site := .operation 1 0 } := by
  have solvable : (Cfg.ofFunction? doublingLoop).toOption.any (fun g =>
      (g.solve (g.reachingDefinitions doublingLoop.params .kill) 10).toOption.any fun solution =>
        g.blocks.any fun b => ((g.body b)[0]?.map Operation.args == some ["x", "x"])
          && (g.reachingAt .kill solution b 0).toList
            == [{ var := "x", site := .operation 0 1 }, { var := "x", site := .operation 1 0 }])
      = true := by cbv
  have converted : (doublingLoop.toSsa { renameLocals := true }).isOk = true := by cbv
  have declared : doublingLoop.BranchesDeclared := by
    unfold Function.BranchesDeclared
    decide
  obtain ⟨g, graph, solvable⟩ := exists_eq_ok_of_any solvable
  obtain ⟨solution, solved, found⟩ := exists_eq_ok_of_any solvable
  obtain ⟨⟨f', summary⟩, ok⟩ := exists_eq_ok_of_isOk converted
  obtain ⟨b, -, found⟩ := List.any_eq_true.mp found
  simp only [Bool.and_eq_true, beq_iff_eq, Option.map_eq_some_iff] at found
  obtain ⟨⟨op, here, args⟩, reaching⟩ := found
  obtain ⟨bodyOf, graph', uses⟩ :=
    Function.toSsa_comesFrom_iff_reaching declared graph ok solved
  obtain ⟨op', -, length, chains⟩ := uses b 0 op here
  have used : 0 < op'.args.length := by simp [length, args]
  refine ⟨f', summary, g, bodyOf, op'.args[0], ok, graph', fun d => ?_⟩
  rw [chains 0 "x" _ (by simp [args]) (List.getElem?_eq_getElem used), ← Std.ExtTreeSet.mem_toList,
    reaching]
  simp only [List.mem_cons, List.not_mem_nil, or_false]
  constructor
  · exact And.right
  · rintro (rfl | rfl) <;> simp

end ThreeAddress
