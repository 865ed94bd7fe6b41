import ThreeAddress.Proofs.Execution.Mirroring
import ThreeAddress.Proofs.Ssa.ConvertedGraph

/-! A function and the converted one take every step together: they are at the same place of the
same block, and the variables that matter there have the values of the names that stand for them.
-/

namespace ThreeAddress

variable {V : Type}

-----------------------------------------------------------------------------------------
-- Phis in flat bodies
-----------------------------------------------------------------------------------------

/-- No phi follows where a block starts or the body ends. -/
theorem leadingPhis_assembleFrom {g : Cfg} (bodyOf : g.Block → List Operation) (first : Nat)
    : leadingPhis (g.assembleFrom bodyOf first) = []
      ∧ afterPhis (g.assembleFrom bodyOf first) = g.assembleFrom bodyOf first := by
  by_cases inside : first < g.size
  · have block := Cfg.assembleFrom_block bodyOf (⟨first, inside⟩ : g.Block)
    simp only at block
    rw [block]
    exact ⟨rfl, rfl⟩
  · have empty : g.assembleFrom bodyOf first = [] := by
      rw [Cfg.assembleFrom, FlowGraph.blocks, List.drop_eq_nil_of_le (by simp; omega),
        List.flatMap_nil]
    rw [empty]
    exact ⟨rfl, rfl⟩

/-- Operations that are no phis have none in front. -/
theorem leadingPhis_of_no_phi {ops : List Operation} {rest : List Instruction}
    (none : ∀ op ∈ ops, op.isPhi = false)
    (end_ : leadingPhis rest = [] ∧ afterPhis rest = rest)
    : leadingPhis (ops.map .operation ++ rest) = []
      ∧ afterPhis (ops.map .operation ++ rest) = ops.map .operation ++ rest := by
  cases ops with
  | nil => exact end_
  | cons op ops =>
      have other := none op List.mem_cons_self
      simp [leadingPhis, afterPhis, other]

/-- Phis in front of what has none in front are the leading ones, by induction on them. -/
theorem leadingPhis_append {phis : List Operation} {rest : List Instruction}
    (all : ∀ op ∈ phis, op.isPhi = true) (end_ : leadingPhis rest = [] ∧ afterPhis rest = rest)
    : leadingPhis (phis.map .operation ++ rest) = phis
      ∧ afterPhis (phis.map .operation ++ rest) = rest := by
  induction phis with
  | nil => exact end_
  | cons op phis ih =>
      have phi := all op List.mem_cons_self
      obtain ⟨leading, after⟩ := ih fun other member => all other (List.mem_cons_of_mem _ member)
      simp [leadingPhis, afterPhis, phi, leading, after]

-----------------------------------------------------------------------------------------
-- Executions that are abreast
-----------------------------------------------------------------------------------------

section Abreast

variable {plan : RenamePlan} {state : Renaming plan}

/-- Two executions stand in front of the same operations of a block, the second in front of the
renamed ones. Uses still to come are of live variables, and those are mirrored.
-/
structure Abreast (plan : RenamePlan) (state : Renaming plan) (vars : List String) (undef : V)
    (b : plan.cfg.Block) (ops ops' : List Operation) (versions : Versions) (killed : List String)
    (s s' : State V)
    : Prop where
  block : s.block = plan.cfg.label b
  block' : s'.block = plan.cfg.label b
  trace : s'.trace = s.trace
  rest : s.rest = ops.map .operation ++ plan.cfg.assembleFrom plan.cfg.body (b + 1)
  rest' : s'.rest = ops'.map .operation ++ plan.cfg.assembleFrom state.body (b + 1)
  suffix : ops <:+ plan.cfg.body b
  suffix' : ops' <:+ (state.blockAt b).body
  ended : ops = [] → ∀ op, (plan.cfg.body b).getLast? = some op → op.isTerminator = false
  renamed : ∃ pushed, plan.renameBody versions ops = .ok (ops', (state.blockAt b).exit, pushed)
  coherent : versions.Coherent
  exposed : ∀ var ∈ exposedUses killed ops, plan.globals.isGlobal var = true
  mirrors : Mirrors plan vars undef versions
    (fun var => plan.globals.isGlobal var = true ∨ var ∈ killed) s.env s'.env

/-- Two executions stand abreast, or both have stopped in the same way after showing the same. -/
inductive Keeps (plan : RenamePlan) (state : Renaming plan) (vars : List String) (undef : V)
  : Execution V → Execution V → Prop
  | running {b : plan.cfg.Block} {ops ops' : List Operation} {versions : Versions}
    {killed : List String} {s s' : State V}
    (abreast : Abreast plan state vars undef b ops ops' versions killed s s')
    : Keeps plan state vars undef (.running s) (.running s')
  | finished (trace : Trace V) : Keeps plan state vars undef (.finished trace) (.finished trace)
  | stuck (trace : Trace V) : Keeps plan state vars undef (.stuck trace) (.stuck trace)

end Abreast

/-- Executions that keep abreast show the same and stand the same way. -/
theorem Keeps.observe {plan : RenamePlan} {state : Renaming plan} {vars : List String} {undef : V}
    {e e' : Execution V} (keeps : Keeps plan state vars undef e e')
    : e'.trace = e.trace ∧ e'.status = e.status := by
  cases keeps with
  | running abreast => exact ⟨abreast.trace, rfl⟩
  | finished trace => exact ⟨rfl, rfl⟩
  | stuck trace => exact ⟨rfl, rfl⟩

-----------------------------------------------------------------------------------------
-- Entering a block
-----------------------------------------------------------------------------------------

/-- A conversion of a function that branches to declared labels only. No variable that is kept has
the name of a version, and nothing is assigned to the marker.
-/
structure Faithful (f : Function) (config : SsaConfig) (f' : Function) (plan : RenamePlan)
    (initial : Versions) (state : Renaming plan) : Prop
    extends Converts f config f' plan initial state where
  declared : f.BranchesDeclared
  apart : plan.KeptApart f.definitions
  free : plan.config.undefName ∉ f'.definitions

namespace Faithful

variable {f f' : Function} {config : SsaConfig} {plan : RenamePlan} {initial : Versions}
  {state : Renaming plan} {undef : V}

/-- The marker is no name that a block defines. -/
theorem free_in_block (faithful : Faithful f config f' plan initial state) (b : plan.cfg.Block)
    : plan.config.undefName ∉ (state.blockAt b).phiDests
      ∧ plan.config.undefName ∉ (state.blockAt b).body.filterMap Operation.dest := by
  have free := faithful.free
  rw [faithful.toConverts.definitions_eq] at free
  simp only [List.mem_append, List.mem_flatMap, Renaming.namesIn, not_or, not_exists, not_and]
    at free
  exact free.2 b (plan.cfg.mem_blocks b)

/-- Entering a block keeps two executions abreast, if the phis select the values of their variables
and all other global variables are mirrored with the versions at its top.
-/
theorem enter (faithful : Faithful f config f' plan initial state) (c : plan.cfg.Block)
    {source : Option String} {env env' : Env V} (trace : Trace V)
    (values
      : (state.phis c).mapM (env'.phiValue? source) = some ((plan.placement.varsAt c).map env))
    (mirrors
      : Mirrors plan f.definitions undef (state.blockAt c).entry
          (fun var => plan.globals.isGlobal var = true ∧ var ∉ plan.placement.varsAt c) env env')
    : Keeps plan state f.definitions undef
        (enterBlock source (plan.cfg.label c)
          ((plan.cfg.body c).map .operation ++ plan.cfg.assembleFrom plan.cfg.body (c + 1)) env
          trace)
        (enterBlock source (plan.cfg.label c)
          ((state.body c).map .operation ++ plan.cfg.assembleFrom state.body (c + 1)) env'
          trace) := by
  have sound := faithful.toConverts.sound faithful.declared
  have complete := faithful.toConverts.complete
  obtain ⟨pushed, renamed⟩ := complete.renamed c
  obtain ⟨inside, later, names, body, -⟩ := RenamePlan.renameBlock_eq_ok renamed
  have noPhi := faithful.toConverts.no_phi_in_body c
  have noPhi' := faithful.toConverts.no_phi_in_renamed c
  have ends := leadingPhis_of_no_phi noPhi (leadingPhis_assembleFrom plan.cfg.body (c + 1))
  have allPhis : ∀ op ∈ state.phis c, op.isPhi = true := fun _ => Renaming.isPhi_of_mem_phis
  have ends' := leadingPhis_append allPhis
    (leadingPhis_of_no_phi noPhi' (leadingPhis_assembleFrom state.body (c + 1)))
  have inner := RenamePlan.coherent_renamePhis (sound.phisRenamed c) (complete.coherent c)
  rw [names] at inner
  have mirrored := mirrors.phis (complete.coherent c) faithful.apart (sound.phisRenamed c)
    (by rw [names]; exact (faithful.free_in_block c).1)
  rw [names] at mirrored
  unfold enterBlock
  rw [complete.body_eq, List.map_append, List.append_assoc, ends.1, ends.2, ends'.1, ends'.2,
    values, List.mapM_nil]
  rw [complete.map_dest_phis]
  have abreast : Abreast plan state f.definitions undef c (plan.cfg.body c) (state.blockAt c).body
      inside []
      { block := plan.cfg.label c
        rest := (plan.cfg.body c).map .operation ++ plan.cfg.assembleFrom plan.cfg.body (c + 1)
        env
        trace }
      { block := plan.cfg.label c
        rest :=
          (state.blockAt c).body.map .operation ++ plan.cfg.assembleFrom state.body (c + 1)
        env := env'.assignAll ((state.blockAt c).phiDests.map some)
          ((plan.placement.varsAt c).map env)
        trace } := {
    block := rfl
    block' := rfl
    trace := rfl
    rest := rfl
    rest' := rfl
    suffix := List.suffix_rfl
    suffix' := List.suffix_rfl
    ended := fun empty op last => by simp [empty] at last
    renamed := ⟨later, body⟩
    coherent := inner
    exposed := sound.exposed_global c
    mirrors := ?_
  }
  · exact .running abreast
  · refine mirrored.mono (fun var member => ?_) (fun _ _ => rfl)
    by_cases phi : var ∈ plan.placement.varsAt c
    · exact .inl phi
    · exact .inr ⟨member.resolve_right List.not_mem_nil, phi⟩

/-- In the slot of a phi for an edge stands the name of its variable at the start of the edge. -/
theorem phiValue?_phi (faithful : Faithful f config f' plan initial state) {p c : plan.cfg.Block}
    (edge : c ∈ plan.cfg.succs p) {var : String} (renamed : plan.isRenamed var = true)
    (dest : String) (env' : Env V)
    : env'.phiValue? (some (plan.cfg.label p)) (state.phi c var dest)
      = some (env' (plan.nameOf (state.blockAt p).exit var)) := by
  have complete := faithful.toConverts.complete
  have injective := (Cfg.proper_of_ok faithful.graph).label_injective
  have found : (plan.cfg.preds c).find?
      (fun q => some (plan.cfg.label q) == some (plan.cfg.label p)) = some p := by
    cases search : (plan.cfg.preds c).find?
        (fun q => some (plan.cfg.label q) == some (plan.cfg.label p)) with
    | none =>
        have absent := List.find?_eq_none.mp search p ((FlowGraph.mem_preds _ _ _).mpr edge)
        exact absurd (beq_self_eq_true _) absent
    | some q =>
        have same := List.find?_some search
        simp only [beq_iff_eq, Option.some.injEq] at same
        rw [injective q p same]
  have name : state.slot var p = plan.nameOf (state.blockAt p).exit var := by
    rw [complete.slot_eq, RenamePlan.nameOf, if_pos renamed]
  rw [Env.phiValue?, Renaming.slots_phi, List.find?_map]
  have shown : ((plan.cfg.preds c).find? ((fun slot => some slot.2 == some (plan.cfg.label p))
      ∘ fun q => (state.slot var q, plan.cfg.label q))) = some p := found
  rw [shown, ← name]
  rfl

/-- Going along an edge keeps two executions abreast: phis select the values at the start of the
edge, and the names of all other global variables stay the same.
-/
theorem enter_along_edge (faithful : Faithful f config f' plan initial state)
    {p c : plan.cfg.Block} (edge : c ∈ plan.cfg.succs p) {env env' : Env V} (trace : Trace V)
    (mirrors
      : Mirrors plan f.definitions undef (state.blockAt p).exit
          (fun var => plan.globals.isGlobal var = true) env env')
    : Keeps plan state f.definitions undef
        (enterBlock (some (plan.cfg.label p)) (plan.cfg.label c)
          ((plan.cfg.body c).map .operation ++ plan.cfg.assembleFrom plan.cfg.body (c + 1)) env
          trace)
        (enterBlock (some (plan.cfg.label p)) (plan.cfg.label c)
          ((state.body c).map .operation ++ plan.cfg.assembleFrom state.body (c + 1)) env'
          trace) := by
  have sound := faithful.toConverts.sound faithful.declared
  have complete := faithful.toConverts.complete
  have reached := Cfg.reachable_of_ok faithful.graph
  apply faithful.enter c trace
  · have select (vars dests : List String) (same : dests.length = vars.length)
        (phis : ∀ var ∈ vars, var ∈ plan.placement.varsAt c)
        : (List.zipWith (state.phi c) vars dests).mapM (env'.phiValue? (some (plan.cfg.label p)))
          = some (vars.map env) := by
      induction vars generalizing dests with
      | nil => rfl
      | cons var rest ih =>
          cases dests with
          | nil => simp at same
          | cons dest dests =>
              have phi := phis var List.mem_cons_self
              have later := ih dests (by simpa using same)
                fun other member => phis other (List.mem_cons_of_mem _ member)
              have value := faithful.phiValue?_phi edge (sound.phisRenamed c var phi) dest env'
              rw [mirrors.value var (sound.phi_global c var phi)] at value
              rw [List.zipWith_cons_cons, List.mapM_cons, value, later]
              rfl
    obtain ⟨pushed, renamed⟩ := complete.renamed c
    obtain ⟨inside, later, names, -⟩ := RenamePlan.renameBlock_eq_ok renamed
    have length := RenamePlan.length_renamePhis (state.blockAt c).entry (plan.placement.varsAt c)
    rw [names] at length
    exact select _ _ length fun _ member => member
  · refine mirrors.mono (fun var member => member.1) (fun var member => ?_)
    rw [RenamePlan.nameOf, RenamePlan.nameOf, Versions.current?, Versions.current?,
      complete.stack_along_edge sound reached edge member.1 member.2]

-----------------------------------------------------------------------------------------
-- One step
-----------------------------------------------------------------------------------------

/-- At the end of a block both executions fall through to the next one, or finish after the last. -/
theorem step_at_end (faithful : Faithful f config f' plan initial state) (I : Interpretation V)
    {b : plan.cfg.Block} {ops' : List Operation} {versions : Versions} {killed : List String}
    {s s' : State V}
    (abreast : Abreast plan state f.definitions I.undef b [] ops' versions killed s s')
    : Keeps plan state f.definitions I.undef (I.step f.body s) (I.step f'.body s') := by
  obtain ⟨pushed, renamed⟩ := abreast.renamed
  obtain ⟨rfl, same, -⟩ : [] = ops' ∧ versions = (state.blockAt b).exit ∧ _ := by
    simpa [RenamePlan.renameBody] using renamed
  have atEnd := abreast.rest
  have atEnd' := abreast.rest'
  rw [List.map_nil, List.nil_append] at atEnd atEnd'
  by_cases last : b.val + 1 < plan.cfg.size
  · have next := Cfg.assembleFrom_block plan.cfg.body (⟨b.val + 1, last⟩ : plan.cfg.Block)
    have next' := Cfg.assembleFrom_block state.body (⟨b.val + 1, last⟩ : plan.cfg.Block)
    have edge : (⟨b.val + 1, last⟩ : plan.cfg.Block) ∈ plan.cfg.succs b :=
      (Cfg.proper_of_ok faithful.graph).mem_succs.mpr (.inr ⟨abreast.ended rfl, rfl⟩)
    rw [next] at atEnd
    rw [next'] at atEnd'
    rw [Interpretation.step, atEnd, Interpretation.step, atEnd', abreast.block, abreast.block',
      abreast.trace]
    refine faithful.enter_along_edge edge s.trace (same ▸ abreast.mirrors.mono ?_ fun _ _ => rfl)
    exact fun var global => .inl global
  · have spent : plan.cfg.size = b.val + 1 := by omega
    rw [← spent, Cfg.assembleFrom_size] at atEnd atEnd'
    rw [Interpretation.step, atEnd, Interpretation.step, atEnd', abreast.trace]
    exact .finished s.trace

/-- The arguments of the next operation have the same values on both sides: an argument that is not
defined before it in the block is global.
-/
theorem values_eq {b : plan.cfg.Block} {op : Operation} {rest ops' : List Operation}
    {versions : Versions} {killed : List String} {s s' : State V}
    (abreast : Abreast plan state f.definitions undef b (op :: rest) ops' versions killed s s')
    : (op.args.map (plan.nameOf versions)).map s'.env = op.args.map s.env := by
  rw [List.map_map]
  refine List.map_congr_left fun arg member => abreast.mirrors.value arg ?_
  by_cases defined : arg ∈ killed
  · exact .inr defined
  · refine .inl (abreast.exposed arg ?_)
    rw [exposedUses]
    exact List.mem_append_left _ (List.mem_filter.mpr ⟨member, by simpa using defined⟩)

/-- An operation leaves its result in its destination on both sides. -/
theorem mirrors_assign (faithful : Faithful f config f' plan initial state) {versions : Versions}
    {killed : List String} {env env' : Env V} {op : Operation} {inside : Versions}
    {dest : Option String} {new : List String} {b : plan.cfg.Block}
    (mirrors
      : Mirrors plan f.definitions undef versions
          (fun var => plan.globals.isGlobal var = true ∨ var ∈ killed) env env')
    (coherent : versions.Coherent) (member : op ∈ plan.cfg.body b)
    (defined : plan.defineDest versions op.dest = (dest, inside, new))
    (free : ∀ name, dest = some name → name ≠ plan.config.undefName) (value : V)
    : inside.Coherent
      ∧ Mirrors plan f.definitions undef inside
          (fun var => plan.globals.isGlobal var = true ∨ var ∈ op.dest.toList ++ killed)
          (env.assign op.dest value) (env'.assign dest value) := by
  cases result : op.dest with
  | none =>
      rw [result] at defined
      obtain ⟨rfl, rfl, rfl⟩ : none = dest ∧ versions = inside ∧ [] = new := by
        simpa [RenamePlan.defineDest] using defined
      refine ⟨coherent, mirrors.mono (fun var live => ?_) (fun _ _ => rfl)⟩
      simpa using live
  | some var =>
      rw [result, RenamePlan.defineDest_some, Prod.mk.injEq, Prod.mk.injEq] at defined
      obtain ⟨rfl, rfl, rfl⟩ := defined
      have listed : var ∈ f.definitions := by
        refine List.mem_append_right _ (List.mem_filterMap.mpr ⟨op, ?_, result⟩)
        exact Function.mem_operations_of_mem_body faithful.graph member
      have next := mirrors.define coherent faithful.apart (.inr listed) (free _ rfl) value
      refine ⟨(plan.extends_define versions var).coherent coherent,
        next.mono (fun other live => ?_) (fun _ _ => rfl)⟩
      rcases live with global | old
      · exact .inr (.inl global)
      · rcases List.mem_cons.mp old with same | old
        · exact .inl same
        · exact .inr (.inr old)

/-- Where a branch leads to, both executions find the block they enter. -/
theorem enter_target (faithful : Faithful f config f' plan initial state) {b : plan.cfg.Block}
    {op : Operation} {label : String} {env env' : Env V} (trace : Trace V)
    (last : (plan.cfg.body b).getLast? = some op) (target : label ∈ op.branchTargets)
    (mirrors
      : Mirrors plan f.definitions undef (state.blockAt b).exit
          (fun var => plan.globals.isGlobal var = true) env env')
    : ∃ rest rest', afterLabel? label f.body = some rest ∧ afterLabel? label f'.body = some rest'
        ∧ Keeps plan state f.definitions undef
          (enterBlock (some (plan.cfg.label b)) label rest env trace)
          (enterBlock (some (plan.cfg.label b)) label rest' env' trace) := by
  have proper := Cfg.proper_of_ok faithful.graph
  obtain ⟨c, edge, rfl⟩ := proper.exists_target last target
  have other : c ≠ plan.cfg.entry := by
    intro same
    rw [same, ← FlowGraph.mem_preds,
      Function.preds_entry_eq_nil faithful.graph faithful.declared] at edge
    exact List.not_mem_nil edge
  have found' := Cfg.afterLabel?_assembleFrom proper.label_injective state.body c c.val 0 (by omega)
  rw [Cfg.assembleFrom_zero, ← faithful.body] at found'
  exact ⟨_, _, Function.afterLabel?_body faithful.graph other, found',
    faithful.enter_along_edge edge trace mirrors⟩

/-- An operation that control goes on after keeps two executions abreast: they stand in front of the
next one.
-/
theorem proceed {b : plan.cfg.Block} {op op' : Operation} {rest others : List Operation}
    {versions inside : Versions} {killed later : List String} {s s' : State V}
    (abreast
      : Abreast plan state f.definitions undef b (op :: rest) (op' :: others) versions killed s s')
    (goesOn : op.isTerminator = false) {env env' : Env V} (shown : Trace V)
    (body : plan.renameBody inside rest = .ok (others, (state.blockAt b).exit, later))
    (coherent : inside.Coherent)
    (mirrors
      : Mirrors plan f.definitions undef inside
          (fun var => plan.globals.isGlobal var = true ∨ var ∈ op.dest.toList ++ killed) env env')
    : Abreast plan state f.definitions undef b rest others inside (op.dest.toList ++ killed)
        { block := s.block
          rest := rest.map .operation ++ plan.cfg.assembleFrom plan.cfg.body (b + 1)
          env
          trace := shown }
        { block := s'.block
          rest := others.map .operation ++ plan.cfg.assembleFrom state.body (b + 1)
          env := env'
          trace := shown } where
  block := abreast.block
  block' := abreast.block'
  trace := rfl
  rest := rfl
  rest' := rfl
  suffix := (List.suffix_cons op rest).trans abreast.suffix
  suffix' := (List.suffix_cons op' others).trans abreast.suffix'
  ended := by
    intro spent last found
    obtain ⟨front, whole⟩ := abreast.suffix
    rw [← whole, spent, List.getLast?_append, List.getLast?_singleton, Option.some_or,
      Option.some.injEq] at found
    exact found ▸ goesOn
  renamed := ⟨later, body⟩
  coherent := coherent
  exposed := by
    intro var exposed
    apply abreast.exposed var
    rw [exposedUses]
    exact List.mem_append_right _ exposed
  mirrors := mirrors

/-- One operation keeps two executions abreast, whether it goes on, branches or returns. -/
theorem step_operation (faithful : Faithful f config f' plan initial state) (I : Interpretation V)
    {b : plan.cfg.Block} {op : Operation} {rest ops' : List Operation} {versions : Versions}
    {killed : List String} {s s' : State V}
    (abreast : Abreast plan state f.definitions I.undef b (op :: rest) ops' versions killed s s')
    : Keeps plan state f.definitions I.undef (I.step f.body s) (I.step f'.body s') := by
  obtain ⟨pushed, renamed⟩ := abreast.renamed
  obtain ⟨dest, inside, new, others, later, defined, body, rfl, -⟩ :=
    RenamePlan.renameBody_cons_eq_ok renamed
  have member : op ∈ plan.cfg.body b := abreast.suffix.subset List.mem_cons_self
  have free : ∀ name, dest = some name → name ≠ plan.config.undefName := by
    intro name result same
    subst same
    refine (faithful.free_in_block b).2 (List.mem_filterMap.mpr
      ⟨{ op with args := op.args.map (plan.nameOf versions), dest }, ?_, result⟩)
    exact abreast.suffix'.subset List.mem_cons_self
  have here : s.rest = .operation op
      :: (rest.map .operation ++ plan.cfg.assembleFrom plan.cfg.body (b + 1)) := abreast.rest
  have here' : s'.rest = .operation { op with args := op.args.map (plan.nameOf versions), dest }
      :: (others.map .operation ++ plan.cfg.assembleFrom state.body (b + 1)) := abreast.rest'
  have same : I.perform { op with args := op.args.map (plan.nameOf versions), dest }
      ((op.args.map (plan.nameOf versions)).map s'.env) s'.trace
      = I.perform op (op.args.map s.env) s.trace := by
    rw [values_eq abreast, abreast.trace]
    rfl
  rw [Interpretation.step, here, Interpretation.step, here']
  simp only [Interpretation.execute]
  rw [same]
  cases performed : I.perform op (op.args.map s.env) s.trace with
  | none =>
      rw [abreast.trace]
      exact .stuck s.trace
  | some result =>
      obtain ⟨value, shown, flow⟩ := result
      obtain ⟨next, goto⟩ := Interpretation.perform_flow performed
      obtain ⟨coherent, mirrored⟩ :=
        faithful.mirrors_assign abreast.mirrors abreast.coherent member defined free value
      cases flow with
      | leave => exact .finished shown
      | next => exact .running (proceed abreast (next rfl) shown body coherent mirrored)
      | goto label =>
          obtain ⟨ends, target⟩ := goto label rfl
          -- Nothing stands behind a branch, so the versions are those at the end of the block.
          obtain rfl := (Cfg.proper_of_ok faithful.graph).eq_nil_of_isTerminator abreast.suffix ends
          have last : (plan.cfg.body b).getLast? = some op := by
            obtain ⟨front, whole⟩ := abreast.suffix
            rw [← whole]
            simp
          obtain ⟨rfl, exit, -⟩ : [] = others ∧ inside = (state.blockAt b).exit ∧ _ := by
            simpa [RenamePlan.renameBody] using body
          have atExit : Mirrors plan f.definitions I.undef (state.blockAt b).exit
              (fun var => plan.globals.isGlobal var = true) (s.env.assign op.dest value)
              (s'.env.assign dest value) :=
            exit ▸ mirrored.mono (fun var global => .inl global) (fun _ _ => rfl)
          obtain ⟨after, after', found, found', keeps⟩ :=
            faithful.enter_target shown last target atExit
          simp only [found, found', abreast.block, abreast.block']
          exact keeps

/-- One step keeps two executions abreast. -/
theorem advance (faithful : Faithful f config f' plan initial state) (I : Interpretation V)
    {e e' : Execution V} (keeps : Keeps plan state f.definitions I.undef e e')
    : Keeps plan state f.definitions I.undef (I.advance f.body e) (I.advance f'.body e') := by
  cases keeps with
  | finished trace => exact .finished trace
  | stuck trace => exact .stuck trace
  | @running b ops ops' versions killed s s' abreast =>
      cases ops with
      | nil => exact faithful.step_at_end I abreast
      | cons op rest => exact faithful.step_operation I abreast

end Faithful

end ThreeAddress
