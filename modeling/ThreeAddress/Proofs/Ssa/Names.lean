import Mathlib.Data.List.Nodup
import ThreeAddress.Proofs.Ssa.Converted

/-! The names that a conversion defines are distinct, since counters never go back, and a version
that is in scope in a block is defined on the way there.
-/

namespace ThreeAddress

namespace RenamePlan

variable {plan : RenamePlan} {defs : List String}

-----------------------------------------------------------------------------------------
-- Distinct names
-----------------------------------------------------------------------------------------

/-- The variables of a list that are not renamed. -/
def kept (plan : RenamePlan) (vars : List String) : List String :=
  vars.filter fun var => !plan.isRenamed var

theorem mem_kept {vars : List String} {var : String}
    : var ∈ plan.kept vars ↔ var ∈ vars ∧ plan.isRenamed var = false := by
  simp [kept]

/-- Where all variables are renamed, none is kept. -/
theorem kept_eq_nil {vars : List String} (renamed : ∀ var ∈ vars, plan.isRenamed var = true)
    : plan.kept vars = [] := by
  rw [kept, List.filter_eq_nil_iff]
  intro var listed
  simp [renamed var listed]

theorem keptApart_of_isRenamed {vars : List String}
    (renamed : ∀ var ∈ vars, plan.isRenamed var = true)
    : plan.KeptApart vars := by
  intro var listed kept
  simp [renamed var listed] at kept

/-- Variables that are kept are distinct if each is listed once at most. -/
theorem nodup_kept {vars : List String}
    (once : ∀ var, plan.isRenamed var = false → vars.count var ≤ 1)
    : (plan.kept vars).Nodup := by
  rw [List.nodup_iff_count_le_one]
  intro var
  cases renamed : plan.isRenamed var with
  | false =>
      exact Nat.le_trans (List.filter_sublist.count_le var) (once var renamed)
  | true =>
      have absent : var ∉ plan.kept vars := by
        rw [mem_kept, renamed]
        simp
      rw [List.count_eq_zero_of_not_mem absent]
      exact Nat.zero_le 1

/-- The name of a definition is a version that has not been created yet, or that of a variable that
is kept.
-/
theorem define_origin (plan : RenamePlan) (versions : Versions) (var : String)
    : (plan.isRenamed var = true
          ∧ (plan.define versions var).1 = versionName var (versions.count var)
          ∧ (plan.define versions var).2.1.count var = versions.count var + 1)
        ∨ (plan.isRenamed var = false ∧ (plan.define versions var).1 = var) := by
  cases renamed : plan.isRenamed var with
  | true =>
      rw [define_of_isRenamed renamed]
      exact .inl ⟨rfl, rfl, by rw [Versions.count_fresh, if_pos rfl]⟩
  | false =>
      rw [define_of_not_isRenamed renamed]
      exact .inr ⟨rfl, rfl⟩

/-- The names of definitions one after another are versions that have not been created yet, or those
of variables that are kept. By induction on the variables.
-/
theorem defineAll_origin {versions : Versions} {vars : List String} {name : String}
    (member : name ∈ (plan.defineAll versions vars).1)
    : (∃ var number, plan.isRenamed var = true ∧ name = versionName var number
          ∧ versions.count var ≤ number)
        ∨ name ∈ plan.kept vars := by
  induction vars generalizing versions with
  | nil => simp [defineAll] at member
  | cons first rest ih =>
      rw [defineAll_cons, List.mem_cons] at member
      rcases member with rfl | later
      · rcases plan.define_origin versions first with ⟨renamed, named, -⟩ | ⟨unrenamed, named⟩
        · exact .inl ⟨first, versions.count first, renamed, named, Nat.le_refl _⟩
        · rw [named]
          exact .inr (mem_kept.mpr ⟨List.mem_cons_self, unrenamed⟩)
      · rcases ih later with ⟨var, number, renamed, named, low⟩ | old
        · exact .inl ⟨var, number, renamed, named,
            Nat.le_trans ((plan.extends_define versions first).count_le var) low⟩
        · obtain ⟨listed, unrenamed⟩ := mem_kept.mp old
          exact .inr (mem_kept.mpr ⟨List.mem_cons_of_mem _ listed, unrenamed⟩)

/-- The names of definitions one after another are distinct: versions because the numbers of the
later ones are higher, kept variables because they are defined once. By induction on the variables.
-/
theorem nodup_defineAll {vars : List String} (versions : Versions) (apart : plan.KeptApart vars)
    (once : (plan.kept vars).Nodup)
    : (plan.defineAll versions vars).1.Nodup := by
  induction vars generalizing versions with
  | nil => exact List.nodup_nil
  | cons first rest ih =>
      have onceRest : (plan.kept rest).Nodup :=
        once.sublist ((List.sublist_cons_self first rest).filter _)
      have later := ih (plan.define versions first).2.1
        (fun var member => apart var (List.mem_cons_of_mem _ member)) onceRest
      rw [defineAll_cons, List.nodup_cons]
      refine ⟨fun again => ?_, later⟩
      rcases plan.define_origin versions first with ⟨renamed, named, next⟩ | ⟨unrenamed, named⟩
      · rw [named] at again
        rcases defineAll_origin again with ⟨var, number, _, same, low⟩ | old
        · obtain ⟨rfl, rfl⟩ := versionName_inj same
          omega
        · obtain ⟨listed, unrenamed⟩ := mem_kept.mp old
          exact apart _ (List.mem_cons_of_mem _ listed) unrenamed first _ renamed rfl
      · rw [named] at again
        rcases defineAll_origin again with ⟨var, number, renamed, same, _⟩ | old
        · exact apart first List.mem_cons_self unrenamed var number renamed same
        · rw [kept, List.filter_cons_of_pos (by simp [unrenamed]), List.nodup_cons] at once
          exact once.1 old

-----------------------------------------------------------------------------------------
-- All definitions of a walk
-----------------------------------------------------------------------------------------

/-- The name of a definition, and the counters after it, depend on the counters only. -/
theorem define_congr {versions versions' : Versions} (same : versions'.count = versions.count)
    (var : String)
    : (plan.define versions' var).1 = (plan.define versions var).1
        ∧ (plan.define versions' var).2.1.count = (plan.define versions var).2.1.count := by
  cases renamed : plan.isRenamed var with
  | false =>
      rw [define_of_not_isRenamed renamed, define_of_not_isRenamed renamed]
      exact ⟨rfl, same⟩
  | true =>
      rw [define_of_isRenamed renamed, define_of_isRenamed renamed, same]
      refine ⟨rfl, funext fun other => ?_⟩
      rw [Versions.count_fresh, Versions.count_fresh, same]

/-- The names of definitions one after another, and the counters after them, depend on the counters
only. By induction on the variables.
-/
theorem defineAll_congr {versions versions' : Versions} (same : versions'.count = versions.count)
    (vars : List String)
    : (plan.defineAll versions' vars).1 = (plan.defineAll versions vars).1
        ∧ (plan.defineAll versions' vars).2.1.count
          = (plan.defineAll versions vars).2.1.count := by
  induction vars generalizing versions versions' with
  | nil => exact ⟨rfl, same⟩
  | cons var rest ih =>
      obtain ⟨name, counts⟩ := plan.define_congr same var
      obtain ⟨names, after⟩ := ih counts
      simp only [defineAll_cons, name, names]
      exact ⟨trivial, after⟩

/-- A walk defines the same names as its definitions one after another do if none goes out of scope
in between, by induction on the walk.
-/
theorem Walked.defines (placed : plan.PhisRenamed) {versions final : Versions}
    {blocks : List plan.cfg.Block} {entered : List (plan.cfg.Block × RenamedBlock)}
    (walked : Walked plan versions blocks entered final)
    : (plan.defineAll versions (entered.flatMap fun x => plan.definedIn x.1)).1
          = entered.flatMap (fun x => x.2.phiDests ++ x.2.body.filterMap Operation.dest)
        ∧ (plan.defineAll versions (entered.flatMap fun x => plan.definedIn x.1)).2.1.count
          = final.count := by
  induction walked with
  | nil => exact ⟨rfl, rfl⟩
  | @cons versions inside final b block pushed rest below others renamed _ _ ofChildren
      ofSiblings =>
      obtain ⟨namesBelow, countsBelow⟩ := ofChildren
      obtain ⟨namesBeside, countsBeside⟩ := ofSiblings
      have unpopped : (plan.defineAll block.exit
            (below.flatMap fun x => plan.definedIn x.1)).2.1.count
          = (pushed.foldl Versions.pop inside).count := by
        rw [countsBelow]
        exact (funext fun var => Versions.count_foldl_pop pushed inside var).symm
      obtain ⟨namesAfter, countsAfter⟩ :=
        plan.defineAll_congr unpopped (others.flatMap fun x => plan.definedIn x.1)
      simp only [List.flatMap_cons, List.flatMap_append, defineAll_append,
        renameBlock_defines placed renamed, namesBelow, namesAfter, namesBeside, countsAfter,
        countsBeside]
      exact ⟨trivial, trivial⟩

-----------------------------------------------------------------------------------------
-- Names in scope
-----------------------------------------------------------------------------------------

/-- A version on a stack is the name just defined or was there before. -/
theorem mem_stack_define {versions : Versions} {var other name : String}
    (member : name ∈ (plan.define versions var).2.1.stack other)
    : name = (plan.define versions var).1 ∨ name ∈ versions.stack other := by
  by_cases same : var = other
  · subst same
    cases renamed : plan.isRenamed var with
    | false =>
        rw [define_of_not_isRenamed renamed] at member
        exact .inr member
    | true =>
        rw [define_of_isRenamed renamed, Versions.stack_fresh, if_pos rfl] at member
        rw [define_of_isRenamed renamed]
        exact List.mem_cons.mp member
  · rw [stack_define_of_ne versions same] at member
    exact .inr member

/-- A version on a stack is one of the names just defined or was there before, by induction on the
variables.
-/
theorem mem_stack_defineAll (plan : RenamePlan) (versions : Versions) (vars : List String)
    (var name : String) (member : name ∈ (plan.defineAll versions vars).2.1.stack var)
    : name ∈ (plan.defineAll versions vars).1 ∨ name ∈ versions.stack var := by
  induction vars generalizing versions with
  | nil => exact .inr member
  | cons first rest ih =>
      rw [defineAll_cons] at member ⊢
      rcases ih _ member with later | old
      · exact .inl (List.mem_cons_of_mem _ later)
      · rcases mem_stack_define old with new | old
        · exact .inl (new ▸ List.mem_cons_self)
        · exact .inr old

end RenamePlan

namespace Renaming.Complete

variable {plan : RenamePlan} {state : Renaming plan} {initial : Versions}

/-- A version that is in scope at the end of a block was so at its top, or is defined in it. -/
theorem mem_exit_stack (complete : state.Complete initial) (sound : plan.Sound)
    {b : plan.cfg.Block} {var name : String} (member : name ∈ (state.blockAt b).exit.stack var)
    : name ∈ state.namesIn b ∨ name ∈ (state.blockAt b).entry.stack var := by
  obtain ⟨pushed, renamed⟩ := complete.renamed b
  have defined := RenamePlan.renameBlock_defines sound.phisRenamed renamed
  have origin := plan.mem_stack_defineAll (state.blockAt b).entry (plan.definedIn b) var name
  rw [defined] at origin
  exact origin member

/-- A version that is in scope at the top of a block is a parameter or defined in a block that
strictly dominates it. By induction up the tree.
-/
theorem mem_entry_stack (complete : state.Complete initial) (sound : plan.Sound)
    (reached : ∀ b, plan.cfg.Reachable b) {b : plan.cfg.Block} {var name : String}
    (member : name ∈ (state.blockAt b).entry.stack var)
    : name ∈ initial.stack var
      ∨ ∃ d, plan.cfg.StrictlyPathDominates d b ∧ name ∈ state.namesIn d := by
  induction bound : plan.cfg.level b using Nat.strongRecOn generalizing b with
  | ind n ih =>
      by_cases top : b = plan.cfg.entry
      · subst top
        rw [complete.start] at member
        exact .inl member
      · obtain ⟨d, dom⟩ := (reached b).exists_idom top
        rw [complete.below d b dom] at member
        rcases complete.mem_exit_stack sound member with here | above
        · exact .inr ⟨d, dom.1, here⟩
        · rcases ih _ (bound ▸ dom.1.level_lt) above rfl with param | ⟨e, strict, there⟩
          · exact .inl param
          · exact .inr ⟨e, strict.trans_left dom.1.2, there⟩

end Renaming.Complete

namespace Converts

variable {f f' : Function} {config : SsaConfig} {plan : RenamePlan} {initial : Versions}
  {state : Renaming plan}

/-- What is in scope before the first block is a parameter of the converted function. -/
theorem mem_params_of_initial (conversion : Converts f config f' plan initial state)
    {var name : String} (member : name ∈ initial.stack var)
    : name ∈ f'.params.map Param.name := by
  obtain ⟨pushed, params⟩ := conversion.params
  have defined := plan.renameParams_eq .empty f.params
  rw [params] at defined
  have origin := plan.mem_stack_defineAll .empty (f.params.map Param.name) var name
  rw [defined] at origin
  exact (origin member).resolve_right (by simp)

/-- The names that the parameters and the blocks define, in the order in which blocks are entered,
are those of all definitions one after another.
-/
theorem defines (conversion : Converts f config f' plan initial state)
    : (plan.defineAll .empty
          (f.params.map Param.name ++ state.done.flatMap fun x => plan.definedIn x.1)).1
        = f'.params.map Param.name ++ state.done.flatMap fun x => state.namesIn x.1 := by
  obtain ⟨pushed, params⟩ := conversion.params
  obtain ⟨final, walk⟩ := conversion.walk
  have first := plan.renameParams_eq .empty f.params
  rw [params] at first
  have named : state.done.flatMap (fun x => x.2.phiDests ++ x.2.body.filterMap Operation.dest)
      = state.done.flatMap fun x => state.namesIn x.1 := by
    apply List.flatMap_congr
    intro x member
    rw [(conversion.block?_of_mem member).2, Renaming.namesIn]
  simp only [RenamePlan.defineAll_append, first, (walk.defines conversion.phisRenamed).1, named]

/-- What is listed block by block in the order in which blocks are entered is listed in the order of
the blocks too.
-/
theorem flatMap_done_perm (conversion : Converts f config f' plan initial state) {α : Type}
    (list : plan.cfg.Block → List α)
    : (state.done.flatMap fun x => list x.1).Perm (plan.cfg.blocks.flatMap list) := by
  have perm := conversion.done_perm.flatMap_right list
  rwa [List.flatMap_map] at perm

/-- A conversion defines the variables that are kept as often as the function does: phis are only
for variables that are renamed.
-/
theorem kept_perm (conversion : Converts f config f' plan initial state)
    : (plan.kept (f.params.map Param.name
        ++ state.done.flatMap fun x => plan.definedIn x.1)).Perm (plan.kept f.definitions) := by
  have keptIn (b : plan.cfg.Block)
      : plan.kept (plan.definedIn b) = plan.kept ((plan.cfg.body b).filterMap Operation.dest) := by
    rw [RenamePlan.definedIn, RenamePlan.kept, List.filter_append, List.filter_eq_nil_iff.mpr]
    · rfl
    · intro var member
      simp [conversion.phisRenamed b var member]
  rw [Function.definitions_eq_flatMap conversion.graph, RenamePlan.kept, RenamePlan.kept,
    List.filter_append, List.filter_append, List.filter_flatMap, List.filter_flatMap]
  apply List.Perm.append_left _
  refine (conversion.flatMap_done_perm fun b => plan.kept (plan.definedIn b)).trans
    (List.Perm.of_eq ?_)
  exact congrArg plan.cfg.blocks.flatMap (funext keptIn)

/-- The definitions of a converted function are the names defined one after another, in another
order.
-/
theorem definitions_perm (conversion : Converts f config f' plan initial state)
    : f'.definitions.Perm (plan.defineAll .empty
        (f.params.map Param.name ++ state.done.flatMap fun x => plan.definedIn x.1)).1 := by
  rw [conversion.defines, conversion.definitions_eq]
  exact (List.Perm.append_left _ (conversion.flatMap_done_perm state.namesIn)).symm

/-- Every definition of a converted function has its own name, if no variable that is kept is
defined twice or spelled like a version.
-/
theorem definitions_nodup (conversion : Converts f config f' plan initial state)
    (apart : plan.KeptApart f.definitions) (once : (plan.kept f.definitions).Nodup)
    : f'.definitions.Nodup := by
  apply conversion.definitions_perm.nodup_iff.mpr
  refine RenamePlan.nodup_defineAll .empty ?_ (conversion.kept_perm.nodup_iff.mpr once)
  intro var member unrenamed
  have listed := conversion.kept_perm.mem_iff.mp (RenamePlan.mem_kept.mpr ⟨member, unrenamed⟩)
  exact apart var (RenamePlan.mem_kept.mp listed).1 unrenamed

end Converts

end ThreeAddress
