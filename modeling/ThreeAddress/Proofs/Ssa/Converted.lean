import ThreeAddress.Proofs.ControlFlow.Assembly
import ThreeAddress.Proofs.ControlFlow.WellFormed
import ThreeAddress.Proofs.Ssa.Placement
import ThreeAddress.Proofs.Ssa.TreeWalk

/-! A finished conversion: which renaming it went through, and which versions are in scope at the
ends of every edge.
-/

namespace ThreeAddress

/-- All blocks of a function that is accepted without exceptions are reachable. -/
theorem Cfg.reachable_of_ok {f : Function} {g : Cfg} (ok : Cfg.ofFunction? f = .ok g) (b : g.Block)
    : g.Reachable b := by
  obtain ⟨-, -, -, -, all⟩ := Cfg.ofFunction?_eq_ok.mp ok
  exact Cfg.unreachableBlock?_eq_none.mp (all.resolve_left (by simp)) b

-----------------------------------------------------------------------------------------
-- The renaming behind a conversion
-----------------------------------------------------------------------------------------

/-- A block that a renaming has entered; a block without versions for all others. -/
def Renaming.blockAt {plan : RenamePlan} (state : Renaming plan) (b : plan.cfg.Block)
    : RenamedBlock :=
  (state.block? b).getD ⟨.empty, [], [], .empty⟩

/-- A renaming that succeeds renames the parameters, walks over the whole tree, and takes the
versions of the parameters out of scope.
-/
theorem RenamePlan.rename_eq_ok {plan : RenamePlan} {params params' : List Param}
    {state : Renaming plan} (ok : plan.rename plan.cfg.domTree params = .ok (params', state))
    : ∃ initial pushed final, plan.renameParams .empty params = (params', initial, pushed)
        ∧ Walked plan initial [plan.cfg.entry] state.done final
        ∧ state.versions = pushed.foldl Versions.pop final := by
  have enough : ∀ b ∈ [plan.cfg.entry], plan.cfg.size < plan.cfg.size + plan.cfg.level b := by
    intro b entry
    rw [List.mem_singleton.mp entry, FlowGraph.level_entry]
    omega
  rcases renamed : plan.renameParams .empty params with ⟨named, initial, pushed⟩
  rw [rename, renamed] at ok
  cases below : plan.renameBelow plan.cfg.domTree plan.cfg.size { versions := initial }
      plan.cfg.entry with
  | error fault =>
      simp only [below, bind, Except.bind] at ok
      cases ok
  | ok inside =>
      simp only [below, bind, Except.bind, Except.ok.injEq, Prod.mk.injEq] at ok
      obtain ⟨rfl, rfl⟩ := ok
      have whole : [plan.cfg.entry].foldlM (plan.renameBelow plan.cfg.domTree plan.cfg.size)
          { versions := initial } = .ok inside := by
        rw [List.foldlM_cons, below]
        rfl
      obtain ⟨entered, listed, walk⟩ := walked_of_foldlM enough whole
      obtain rfl : inside.done = entered := listed
      exact ⟨initial, pushed, inside.versions, rfl, walk, rfl⟩

/-- The renaming of a function: its parameters are renamed first, and then a walk over the whole
tree gives the blocks.
-/
structure Converts (f : Function) (config : SsaConfig) (f' : Function) (plan : RenamePlan)
    (initial : Versions) (state : Renaming plan)
    : Prop where
  no_phi : f.hasPhi = false
  graph : Cfg.ofFunction? f = .ok plan.cfg
  plan_eq : plan.cfg.renamePlan f.params config = plan
  params : ∃ pushed, plan.renameParams .empty f.params = (f'.params, initial, pushed)
  walk : ∃ final, RenamePlan.Walked plan initial [plan.cfg.entry] state.done final
  same_name : f'.name = f.name
  body : f'.body = plan.cfg.assemble state.body

/-- Where a function has no phi and a graph, converting it is renaming it. -/
theorem Function.toSsa_eq_rename {f : Function} {g : Cfg} (noPhi : f.hasPhi = false)
    (graph : Cfg.ofFunction? f = .ok g) (config : SsaConfig)
    : f.toSsa config
      = ((g.renamePlan f.params config).rename g.domTree f.params).map fun (params, state) =>
          ({ f with params, body := g.assemble state.body },
            { globals := (g.renamePlan f.params config).globals.names
              phis := (g.renamePlan f.params config).placement.phiCount g.toFlowGraph }) := by
  simp only [toSsa, noPhi, graph, Except.mapError, Bool.false_eq_true, ↓reduceIte]
  cases renamed : (g.renamePlan f.params config).rename g.domTree f.params <;>
    simp only [renamed, bind, Except.bind, Except.map]

/-- A conversion that succeeds is such a renaming. -/
theorem Function.toSsa_eq_ok {f f' : Function} {config : SsaConfig} {summary : SsaSummary}
    (ok : f.toSsa config = .ok (f', summary))
    : ∃ plan initial state, Converts f config f' plan initial state := by
  cases phis : f.hasPhi with
  | true => simp [toSsa, phis, bind, Except.bind] at ok
  | false =>
      cases graph : Cfg.ofFunction? f with
      | error fault => simp [toSsa, phis, graph, bind, Except.bind, Except.mapError] at ok
      | ok g =>
          rw [toSsa_eq_rename phis graph] at ok
          cases renamed : (g.renamePlan f.params config).rename g.domTree f.params with
          | error fault => simp [renamed, Except.map] at ok
          | ok result =>
              obtain ⟨params, state⟩ := result
              simp only [renamed, Except.map, Except.ok.injEq, Prod.mk.injEq] at ok
              obtain ⟨rfl, -⟩ := ok
              obtain ⟨initial, pushed, final, first, walk, -⟩ := RenamePlan.rename_eq_ok renamed
              exact ⟨g.renamePlan f.params config, initial, state,
                ⟨phis, graph, rfl, ⟨pushed, first⟩, ⟨final, walk⟩, rfl, rfl⟩⟩

namespace Converts

variable {f f' : Function} {config : SsaConfig} {plan : RenamePlan} {initial : Versions}
  {state : Renaming plan}

theorem sound (conversion : Converts f config f' plan initial state)
    (declared : f.BranchesDeclared)
    : plan.Sound := by
  have source := Function.preds_entry_eq_nil conversion.graph declared
  exact conversion.plan_eq ▸ Cfg.sound_renamePlan source f.params config

theorem phisRenamed (conversion : Converts f config f' plan initial state) : plan.PhisRenamed :=
  conversion.plan_eq ▸ plan.cfg.phisRenamed_renamePlan f.params config

/-- Parameters extend the versions from none. -/
theorem coherent_initial (conversion : Converts f config f' plan initial state)
    : initial.Coherent := by
  obtain ⟨pushed, params⟩ := conversion.params
  have defined := plan.renameParams_eq .empty f.params
  rw [params] at defined
  have extended := plan.extends_defineAll .empty (f.params.map Param.name)
  rw [defined] at extended
  exact extended.coherent Versions.coherent_empty

end Converts

-----------------------------------------------------------------------------------------
-- Versions at the ends of edges
-----------------------------------------------------------------------------------------

/-- What is known of a renaming when its walk is over. Every block has been entered; the entry found
the versions of the parameters, and every other block those that its immediate dominator left.
-/
structure Renaming.Complete {plan : RenamePlan} (state : Renaming plan) (initial : Versions)
    : Prop where
  entered : ∀ b, state.block? b = some (state.blockAt b)
  coherent : ∀ b, (state.blockAt b).entry.Coherent
  renamed : ∀ b, ∃ pushed,
    plan.renameBlock (state.blockAt b).entry b = .ok (state.blockAt b, pushed)
  start : (state.blockAt plan.cfg.entry).entry.stack = initial.stack
  below : ∀ d b, plan.cfg.ImmediatelyDominates d b →
    (state.blockAt b).entry.stack = (state.blockAt d).exit.stack

/-- A block in a list without duplicates is found there. -/
theorem List.lookup_eq_some_of_mem {α β : Type} [BEq α] [LawfulBEq α] {l : List (α × β)} {a : α}
    {b : β} (unique : (l.map Prod.fst).Nodup) (member : (a, b) ∈ l)
    : l.lookup a = some b := by
  induction l with
  | nil => simp at member
  | cons pair rest ih =>
      obtain ⟨c, d⟩ := pair
      rw [List.map_cons, List.nodup_cons] at unique
      rcases List.mem_cons.mp member with same | later
      · obtain ⟨rfl, rfl⟩ := Prod.mk.inj same
        exact List.lookup_cons_self
      · have other : (a == c) = false := by
          rw [beq_eq_false_iff_ne]
          intro same
          exact unique.1 (same ▸ List.mem_map.mpr ⟨(a, b), later, rfl⟩)
        rw [List.lookup_cons, other]
        exact ih unique.2 later

namespace Converts

variable {f f' : Function} {config : SsaConfig} {plan : RenamePlan} {initial : Versions}
  {state : Renaming plan}

/-- The walk of a conversion enters every block once. -/
theorem done_perm (conversion : Converts f config f' plan initial state)
    : (state.done.map Prod.fst).Perm plan.cfg.blocks := by
  have reached := Cfg.reachable_of_ok conversion.graph
  obtain ⟨final, walk⟩ := conversion.walk
  have once : (state.done.map Prod.fst).Nodup := by
    refine walk.entered_nodup (fun c _ => reached c) (List.nodup_singleton _) ?_
    intro b first c second _ _ _
    rw [List.mem_singleton.mp first, List.mem_singleton.mp second]
  apply (List.perm_ext_iff_of_nodup once (List.nodup_finRange _)).mpr
  intro b
  refine iff_of_true ?_ (plan.cfg.mem_blocks b)
  exact (walk.mem_entered fun c _ => reached c).mpr
    ⟨plan.cfg.entry, List.mem_singleton_self _, .entry (reached b)⟩

/-- What the walk lists for a block is the block of the renaming. -/
theorem block?_of_mem (conversion : Converts f config f' plan initial state) {b : plan.cfg.Block}
    {block : RenamedBlock} (member : (b, block) ∈ state.done)
    : state.block? b = some block ∧ block = state.blockAt b := by
  have once : (state.done.map Prod.fst).Nodup :=
    conversion.done_perm.nodup_iff.mpr (List.nodup_finRange _)
  have found : state.block? b = some block := List.lookup_eq_some_of_mem once member
  refine ⟨found, ?_⟩
  rw [Renaming.blockAt, found]
  rfl

/-- The walk of a conversion completes its renaming. -/
theorem complete (conversion : Converts f config f' plan initial state)
    : state.Complete initial := by
  have placed := conversion.phisRenamed
  obtain ⟨final, walk⟩ := conversion.walk
  have entered (b : plan.cfg.Block) : (b, state.blockAt b) ∈ state.done := by
    have listed := conversion.done_perm.mem_iff.mpr (plan.cfg.mem_blocks b)
    obtain ⟨⟨c, block⟩, member, same⟩ := List.mem_map.mp listed
    obtain rfl : c = b := same
    exact (conversion.block?_of_mem member).2 ▸ member
  refine {
    entered := fun b => (conversion.block?_of_mem (entered b)).1
    coherent := fun b => (walk.renamed_of_mem placed conversion.coherent_initial (entered b)).1
    renamed := fun b => (walk.renamed_of_mem placed conversion.coherent_initial (entered b)).2
    start := ?_
    below := ?_
  }
  · rcases walk.entry_stack placed (entered plan.cfg.entry) with ⟨-, stack⟩ | ⟨d, _, _, dom, _⟩
    · exact stack
    · exact absurd dom.1.2.eq_entry dom.1.1
  · intro d b dom
    rcases walk.entry_stack placed (entered b) with ⟨top, -⟩ | ⟨c, above, listed, other, stack⟩
    · obtain rfl := List.mem_singleton.mp top
      exact absurd dom.1.2.eq_entry dom.1.1
    · rw [stack, (conversion.block?_of_mem listed).2, other.unique dom]

end Converts

/-- Along an edge the newest version of a global variable stays the same, unless the block that the
edge enters has a phi for it. Between the immediate dominator of that block and the end of the edge
nothing defines the variable, or it would have a phi there. By induction up the tree.
-/
theorem Renaming.Complete.stack_along_edge {plan : RenamePlan} {state : Renaming plan}
    {initial : Versions} (complete : state.Complete initial) (sound : plan.Sound)
    (reached : ∀ b, plan.cfg.Reachable b) {p b : plan.cfg.Block} (edge : b ∈ plan.cfg.succs p)
    {var : String} (global : plan.globals.isGlobal var = true)
    (absent : var ∉ plan.placement.varsAt b)
    : (state.blockAt b).entry.stack var = (state.blockAt p).exit.stack var := by
  have other : b ≠ plan.cfg.entry := by
    intro same
    rw [same, ← FlowGraph.mem_preds, sound.source] at edge
    exact List.not_mem_nil edge
  obtain ⟨d, dom⟩ := (reached b).exists_idom other
  have up (x : plan.cfg.Block) (toP : plan.cfg.PathDominates x p) (toX : plan.cfg.PathDominates d x)
      : (state.blockAt d).exit.stack var = (state.blockAt x).exit.stack var := by
    induction bound : plan.cfg.level x using Nat.strongRecOn generalizing x with
    | ind n ih =>
        by_cases top : d = x
        · rw [top]
        · have beyond : plan.cfg.InFrontier x b := by
            refine ⟨fun strict => ?_, p, edge, toP⟩
            exact top (toX.antisymm (dom.2 x strict))
          have undefined : var ∉ plan.definedIn x :=
            fun defined => absent (sound.frontier_phi var global x b defined beyond)
          have notEntry : x ≠ plan.cfg.entry := by
            intro same
            subst same
            exact top toX.eq_entry
          obtain ⟨y, domX⟩ := (reached x).exists_idom notEntry
          obtain ⟨pushed, renamed⟩ := complete.renamed x
          calc
            (state.blockAt d).exit.stack var = (state.blockAt y).exit.stack var :=
              ih _ (bound ▸ domX.1.level_lt) y (domX.1.2.trans toP)
                ((toX.cases_idom domX).resolve_left top) rfl
            _ = (state.blockAt x).entry.stack var := by rw [complete.below y x domX]
            _ = (state.blockAt x).exit.stack var :=
              (RenamePlan.stack_exit_of_not_mem sound.phisRenamed renamed undefined).symm
  rw [complete.below d b dom]
  exact up p (.refl (reached p)) (dom.1.2.of_succ dom.1.1 (reached p) edge)

-----------------------------------------------------------------------------------------
-- The operations and definitions of the converted function
-----------------------------------------------------------------------------------------

theorem RenamePlan.length_renamePhis (versions : Versions) (vars : List String)
    : (renamePhis versions vars).1.length = vars.length := by
  induction vars generalizing versions with
  | nil => rfl
  | cons var rest ih => simp only [renamePhis, List.length_cons, ih]

namespace Renaming

variable {plan : RenamePlan} {state : Renaming plan} {initial : Versions}

/-- The phis of a block after renaming. -/
def phis (state : Renaming plan) (b : plan.cfg.Block) : List Operation :=
  List.zipWith (state.phi b) (plan.placement.varsAt b) (state.blockAt b).phiDests

theorem Complete.body_eq (complete : state.Complete initial) (b : plan.cfg.Block)
    : state.body b = state.phis b ++ (state.blockAt b).body := by
  rw [body, complete.entered b]
  rfl

theorem phis_entry (sound : plan.Sound) : state.phis plan.cfg.entry = [] := by
  rw [phis, sound.entry_free]
  rfl

/-- The phis of a block are for the variables that have been placed there. -/
theorem exists_of_mem_phis {b : plan.cfg.Block} {op : Operation} (member : op ∈ state.phis b)
    : ∃ var dest, (var, dest) ∈ (plan.placement.varsAt b).zip (state.blockAt b).phiDests
        ∧ op = state.phi b var dest := by
  rw [phis, ← List.map_uncurry_zip_eq_zipWith, List.mem_map] at member
  obtain ⟨⟨var, dest⟩, paired, rfl⟩ := member
  exact ⟨var, dest, paired, rfl⟩

theorem isPhi_of_mem_phis {b : plan.cfg.Block} {op : Operation} (member : op ∈ state.phis b)
    : op.isPhi = true := by
  obtain ⟨var, dest, -, rfl⟩ := exists_of_mem_phis member
  rfl

theorem slots_phi (b : plan.cfg.Block) (var dest : String)
    : (state.phi b var dest).slots
      = (plan.cfg.preds b).map fun p => (state.slot var p, plan.cfg.label p) := by
  rw [Operation.slots, phi, Globals.blankPhi, List.zip_map']

/-- In a slot stands the version at the end of the block that the slot is for, or the marker. -/
theorem Complete.slot_eq (complete : state.Complete initial) (var : String) (p : plan.cfg.Block)
    : state.slot var p = ((state.blockAt p).exit.current? var).getD plan.config.undefName := by
  rw [slot, complete.entered p]

/-- Every phi that has been placed in a block got a version. -/
theorem Complete.length_phiDests (complete : state.Complete initial) (b : plan.cfg.Block)
    : (state.blockAt b).phiDests.length = (plan.placement.varsAt b).length := by
  obtain ⟨pushed, renamed⟩ := complete.renamed b
  obtain ⟨inside, later, names, -⟩ := RenamePlan.renameBlock_eq_ok renamed
  have count := RenamePlan.length_renamePhis (state.blockAt b).entry (plan.placement.varsAt b)
  rwa [names] at count

/-- Each phi of a block defines its version. -/
theorem Complete.map_dest_phis (complete : state.Complete initial) (b : plan.cfg.Block)
    : (state.phis b).map Operation.dest = (state.blockAt b).phiDests.map some := by
  have length := complete.length_phiDests b
  rw [phis, List.map_zipWith]
  have forget : (fun var dest => (state.phi b var dest).dest) = fun _ dest => some dest := rfl
  rw [forget, ← List.map_uncurry_zip_eq_zipWith]
  change ((plan.placement.varsAt b).zip _).map (some ∘ Prod.snd) = _
  rw [← List.map_map, List.map_snd_zip (Nat.le_of_eq length)]

/-- The names that a block defines: those of its phis and then those of its operations. -/
def namesIn (state : Renaming plan) (b : plan.cfg.Block) : List String :=
  (state.blockAt b).phiDests ++ (state.blockAt b).body.filterMap Operation.dest

theorem Complete.filterMap_dest_phis (complete : state.Complete initial) (b : plan.cfg.Block)
    : (state.phis b).filterMap Operation.dest = (state.blockAt b).phiDests := by
  have dests := congrArg (List.filterMap id) (complete.map_dest_phis b)
  simpa [List.filterMap_map] using dests

theorem Complete.filterMap_dest_body (complete : state.Complete initial) (b : plan.cfg.Block)
    : (state.body b).filterMap Operation.dest = state.namesIn b := by
  rw [complete.body_eq, List.filterMap_append, namesIn, complete.filterMap_dest_phis]

end Renaming

namespace Converts

variable {f f' : Function} {config : SsaConfig} {plan : RenamePlan} {initial : Versions}
  {state : Renaming plan}

/-- What the converted function defines, block by block. -/
theorem definitions_eq (conversion : Converts f config f' plan initial state)
    : f'.definitions = f'.params.map Param.name ++ plan.cfg.blocks.flatMap state.namesIn := by
  rw [Function.definitions, Function.operations, conversion.body, Cfg.operations_assemble,
    List.filterMap_flatMap]
  simp only [conversion.complete.filterMap_dest_body]

end Converts

end ThreeAddress
