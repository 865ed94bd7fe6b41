import Mathlib.Data.List.Perm.Basic
import ThreeAddress.Proofs.Ssa.ConvertedGraph
import ThreeAddress.Proofs.Ssa.IntroducedNames

/-! Conversion only renames and adds phis. Without its phis the converted function is the split one
with other names, and the definitions that stand for a variable, phis included, are numbered without
gaps.
-/

namespace ThreeAddress

-----------------------------------------------------------------------------------------
-- The converted function without its phis
-----------------------------------------------------------------------------------------

/-- An instruction after renaming: labels stay, and operations are renamed. -/
inductive RenamePlan.RenamesInstruction (plan : RenamePlan) : Instruction → Instruction → Prop where
  | label (name : String) : RenamesInstruction plan (.label name) (.label name)
  | operation {op op' : Operation} (renames : plan.RenamesOperation op op')
    : RenamesInstruction plan (.operation op) (.operation op')

/-- A function without its phis. -/
def Function.withoutPhis (f : Function) : Function :=
  { f with body := f.body.filter fun instruction => !instruction.operation?.any Operation.isPhi }

/-- Phis are deleted block by block. -/
theorem Cfg.filter_assemble (g : Cfg) (bodyOf : g.Block → List Operation)
    : ((g.assemble bodyOf).filter fun instruction => !instruction.operation?.any Operation.isPhi)
      = g.assemble fun b => (bodyOf b).filter fun op => !op.isPhi := by
  rw [assemble, List.filter_flatMap, assemble]
  apply List.flatMap_congr
  intro b _
  rw [BasicBlock.flatten, BasicBlock.flatten, List.filter_cons_of_pos rfl, List.filter_map]
  rfl

/-- Flat bodies are renamed as their blocks are. -/
theorem RenamePlan.forall₂_assemble {plan : RenamePlan} {g : Cfg}
    {bodyOf bodyOf' : g.Block → List Operation}
    (renames : ∀ b, List.Forall₂ plan.RenamesOperation (bodyOf b) (bodyOf' b))
    : List.Forall₂ plan.RenamesInstruction (g.assemble bodyOf) (g.assemble bodyOf') := by
  refine List.rel_flatMap (R := Eq) (List.forall₂_eq_eq_eq ▸ rfl) ?_
  rintro b _ rfl
  refine .cons (.label (g.label b)) ?_
  rw [List.forall₂_map_left_iff, List.forall₂_map_right_iff]
  exact (renames b).imp fun _ _ renamed => .operation renamed

-----------------------------------------------------------------------------------------
-- Numbered definitions
-----------------------------------------------------------------------------------------

/-- A name is one of the versions of a variable. -/
def IsVersionOf (name var : String) : Prop :=
  ∃ number, name = versionName var number

/-- The only number that can be meant is the one behind the variable and the dot. -/
theorem isVersionOf_iff {name var : String}
    : IsVersionOf name var
      ↔ name
        = versionName var (Nat.ofDigitChars 10 (name.toList.drop (var.toList.length + 1)) 0) := by
  refine ⟨?_, fun same => ⟨_, same⟩⟩
  rintro ⟨number, rfl⟩
  have digits : (versionName var number).toList.drop (var.toList.length + 1)
      = Nat.toDigits 10 number := by
    simp [versionName]
  rw [digits, Nat.ofDigitChars_ten_toDigits]

instance (name var : String) : Decidable (IsVersionOf name var) :=
  decidable_of_iff _ isVersionOf_iff.symm

/-- The names that stand next to a variable. -/
def namesNextTo (var : String) (pairs : List (String × String)) : List String :=
  (pairs.filter fun pair => pair.1 = var).map Prod.snd

/-- What a converted function defines for a variable: the names that stand where the function it
comes from defines the variable, and the versions of the variable that phis define.
-/
def Function.namesFor (f f' : Function) (var : String) : List String :=
  -- The variable of a phi stands nowhere in the converted function but in the name.
  namesNextTo var (f.definitions.zip f'.withoutPhis.definitions)
    ++ ((f'.operations.filter Operation.isPhi).filterMap Operation.dest).filter
      fun name => IsVersionOf name var

theorem namesNextTo_append (var : String) (front rest : List (String × String))
    : namesNextTo var (front ++ rest) = namesNextTo var front ++ namesNextTo var rest := by
  simp only [namesNextTo, List.filter_append, List.map_append]

theorem namesNextTo_flatMap {α : Type} (var : String) (l : List α)
    (pairs : α → List (String × String))
    : namesNextTo var (l.flatMap pairs) = l.flatMap fun a => namesNextTo var (pairs a) := by
  simp only [namesNextTo, List.filter_flatMap, List.map_flatMap]

/-- Lists put together from pieces of the same lengths are paired piece by piece. -/
theorem zip_flatMap {α β γ : Type} {l : List α} {f : α → List β} {g : α → List γ}
    (same : ∀ a, (f a).length = (g a).length)
    : (l.flatMap f).zip (l.flatMap g) = l.flatMap fun a => (f a).zip (g a) := by
  induction l with
  | nil => rfl
  | cons a rest ih =>
      simp only [List.flatMap_cons]
      rw [List.zip_append (same a), ih]

namespace RenamePlan

variable {plan : RenamePlan}

/-- A definition of a renamed variable moves on the counter of the variable, and of no other one. -/
theorem count_define (versions : Versions) {var : String} (renamed : plan.isRenamed var = true)
    (first : String)
    : (plan.define versions first).2.1.count var
      = if first = var then versions.count var + 1 else versions.count var := by
  cases own : plan.isRenamed first with
  | true =>
      rw [define_of_isRenamed own, Versions.count_fresh]
      split
      · next same => rw [same]
      · rfl
  | false =>
      have different : first ≠ var := by
        rintro rfl
        simp [renamed] at own
      rw [define_of_not_isRenamed own, if_neg different]

theorem length_defineAll (plan : RenamePlan) (versions : Versions) (vars : List String)
    : (plan.defineAll versions vars).1.length = vars.length := by
  induction vars generalizing versions with
  | nil => rfl
  | cons var rest ih => rw [defineAll_cons, List.length_cons, ih, List.length_cons]

/-- The definitions of a renamed variable are numbered one after another, beginning with the number
of versions that there are already. By induction on the variables.
-/
theorem namesNextTo_defineAll (versions : Versions) (vars : List String) {var : String}
    (renamed : plan.isRenamed var = true)
    : namesNextTo var (vars.zip (plan.defineAll versions vars).1)
      = (List.range' (versions.count var) (vars.count var)).map (versionName var) := by
  induction vars generalizing versions with
  | nil => rfl
  | cons first rest ih =>
      rw [defineAll_cons, List.zip_cons_cons]
      by_cases same : first = var
      · subst same
        have named : (plan.define versions first).1 = versionName first (versions.count first) := by
          rw [define_of_isRenamed renamed]
        rw [namesNextTo, List.filter_cons_of_pos (by simp), List.map_cons, ← namesNextTo, ih,
          count_define versions renamed, if_pos rfl, named, List.count_cons_self, List.range'_succ,
          List.map_cons]
      · rw [namesNextTo, List.filter_cons_of_neg (by simpa using same), ← namesNextTo, ih,
          count_define versions renamed, if_neg same, List.count_cons_of_ne same]

end RenamePlan

/-- Of names that all are versions, those that are versions of a variable stand next to it. -/
theorem filter_isVersionOf {pairs : List (String × String)}
    (versions : ∀ var name, (var, name) ∈ pairs → IsVersionOf name var) (var : String)
    : ((pairs.map Prod.snd).filter fun name => IsVersionOf name var) = namesNextTo var pairs := by
  rw [List.filter_map, namesNextTo]
  congr 1
  apply List.filter_congr
  rintro ⟨other, name⟩ member
  obtain ⟨number, rfl⟩ := versions other name member
  rw [Function.comp, decide_eq_decide]
  exact ⟨fun ⟨_, same⟩ => (versionName_inj same).1, fun same => ⟨number, same ▸ rfl⟩⟩

namespace Converts

variable {f f' : Function} {config : SsaConfig} {plan : RenamePlan} {initial : Versions}
  {state : Renaming plan}

theorem body_withoutPhis (conversion : Converts f config f' plan initial state)
    : f'.withoutPhis.body = plan.cfg.assemble fun b => (state.blockAt b).body := by
  rw [Function.withoutPhis, conversion.body, Cfg.filter_assemble]
  simp only [conversion.filter_body]

theorem definitions_withoutPhis (conversion : Converts f config f' plan initial state)
    : f'.withoutPhis.definitions = f'.params.map Param.name
        ++ plan.cfg.blocks.flatMap fun b => (state.blockAt b).body.filterMap Operation.dest := by
  rw [Function.definitions, Function.operations, conversion.body_withoutPhis,
    Cfg.operations_assemble, List.filterMap_flatMap]
  rfl

/-- What the phis of the converted function define, block by block. -/
theorem phiDests_eq (conversion : Converts f config f' plan initial state)
    : (f'.operations.filter Operation.isPhi).filterMap Operation.dest
      = plan.cfg.blocks.flatMap fun b => (state.blockAt b).phiDests := by
  rw [Function.operations, conversion.body, Cfg.operations_assemble, List.filter_flatMap,
    List.filterMap_flatMap]
  simp only [conversion.filter_isPhi_body, conversion.complete.filterMap_dest_phis]

/-- Results of operations are renamed one by one. -/
theorem length_results (conversion : Converts f config f' plan initial state) (b : plan.cfg.Block)
    : ((plan.cfg.body b).filterMap Operation.dest).length
      = ((state.blockAt b).body.filterMap Operation.dest).length := by
  obtain ⟨pushed, renamed⟩ := conversion.complete.renamed b
  obtain ⟨inside, later, -, body, -⟩ := RenamePlan.renameBlock_eq_ok renamed
  have length := plan.length_defineAll inside ((plan.cfg.body b).filterMap Operation.dest)
  rw [RenamePlan.renameBody_eq_ok body] at length
  exact length.symm

theorem length_params (conversion : Converts f config f' plan initial state)
    : (f.params.map Param.name).length = (f'.params.map Param.name).length := by
  obtain ⟨pushed, params⟩ := conversion.params
  rw [List.length_map, List.length_map, (RenamePlan.forall₂_renameParams params).length_eq]

/-- What the converted function defines for a variable is what stands next to it where the
variables and the names are listed block by block, those of the phis of a block first.
-/
theorem namesFor_perm (conversion : Converts f config f' plan initial state) (var : String)
    : (f.namesFor f' var).Perm
        (namesNextTo var ((f.params.map Param.name).zip (f'.params.map Param.name))
          ++ plan.cfg.blocks.flatMap fun b =>
              namesNextTo var ((plan.definedIn b).zip (state.namesIn b))) := by
  have inPhis (b : plan.cfg.Block)
      : ((state.blockAt b).phiDests.filter fun name => IsVersionOf name var)
        = namesNextTo var ((plan.placement.varsAt b).zip (state.blockAt b).phiDests) := by
    rw [← filter_isVersionOf (fun _ _ => conversion.phiDest_origin) var, List.map_snd_zip]
    exact Nat.le_of_eq (conversion.complete.length_phiDests b)
  have inBlock (b : plan.cfg.Block)
      : namesNextTo var ((plan.definedIn b).zip (state.namesIn b))
        = namesNextTo var ((plan.placement.varsAt b).zip (state.blockAt b).phiDests)
          ++ namesNextTo var (((plan.cfg.body b).filterMap Operation.dest).zip
            ((state.blockAt b).body.filterMap Operation.dest)) := by
    rw [RenamePlan.definedIn, Renaming.namesIn,
      List.zip_append (conversion.complete.length_phiDests b).symm, namesNextTo_append]
  rw [Function.namesFor, Function.definitions_eq_flatMap conversion.graph,
    conversion.definitions_withoutPhis, List.zip_append conversion.length_params,
    zip_flatMap conversion.length_results, namesNextTo_append, namesNextTo_flatMap,
    conversion.phiDests_eq, List.filter_flatMap, List.append_assoc]
  simp only [inPhis, inBlock]
  exact (List.perm_append_comm.trans (List.flatMap_append_perm _ _ _)).append_left _

/-- The definitions that stand for a renamed variable are numbered from zero on, without gaps. -/
theorem namesFor_perm_range (conversion : Converts f config f' plan initial state) {var : String}
    (renamed : plan.isRenamed var = true)
    : (f.namesFor f' var).Perm
        ((List.range ((plan.allDefined f.params).count var)).map (versionName var)) := by
  have same (b : plan.cfg.Block) : (plan.definedIn b).length = (state.namesIn b).length := by
    rw [RenamePlan.definedIn, Renaming.namesIn, List.length_append, List.length_append,
      conversion.complete.length_phiDests b, conversion.length_results b]
  have pieces : (state.done.flatMap fun x => plan.definedIn x.1).zip
        (state.done.flatMap fun x => state.namesIn x.1)
      = state.done.flatMap fun x => (plan.definedIn x.1).zip (state.namesIn x.1) :=
    zip_flatMap fun x => same x.1
  have numbered := plan.namesNextTo_defineAll .empty
    (f.params.map Param.name ++ state.done.flatMap fun x => plan.definedIn x.1) renamed
  rw [conversion.defines, List.zip_append conversion.length_params, pieces, namesNextTo_append,
    namesNextTo_flatMap, conversion.allDefined_perm.count_eq, Versions.count_empty,
    ← List.range_eq_range'] at numbered
  rw [← numbered]
  refine (conversion.namesFor_perm var).trans (List.Perm.append_left _ ?_)
  exact (conversion.flatMap_done_perm fun b =>
    namesNextTo var ((plan.definedIn b).zip (state.namesIn b))).symm

/-- Without its phis the converted function is the split one, renamed instruction by instruction. -/
theorem forall₂_withoutPhis (conversion : Converts f config f' plan initial state)
    : List.Forall₂ plan.RenamesInstruction f.entryBody f'.withoutPhis.body := by
  rw [Function.entryBody_eq_assemble conversion.graph, conversion.body_withoutPhis]
  exact RenamePlan.forall₂_assemble conversion.forall₂_body

/-- Each phi defines a version of a variable that is renamed. -/
theorem exists_version_of_phi (conversion : Converts f config f' plan initial state)
    {op : Operation} (listed : op ∈ f'.operations) (isPhi : op.isPhi = true)
    : ∃ var number, plan.isRenamed var = true ∧ op.dest = some (versionName var number) := by
  rw [Function.operations, conversion.body, Cfg.operations_assemble, List.mem_flatMap] at listed
  obtain ⟨b, -, listed⟩ := listed
  obtain ⟨var, name, paired, rfl⟩ := conversion.exists_phi listed isPhi
  obtain ⟨number, rfl⟩ := conversion.phiDest_origin paired
  exact ⟨var, number, conversion.phisRenamed b var (List.of_mem_zip paired).1, rfl⟩

end Converts

/-- Converting a function changes its parameters and its body only. -/
theorem Function.toSsa_same_signature {f f' : Function} {config : SsaConfig} {summary : SsaSummary}
    (ok : f.toSsa config = .ok (f', summary))
    : f' = { f with params := f'.params, body := f'.body } := by
  obtain ⟨plan, initial, state, conversion⟩ := toSsa_eq_ok ok
  rw [toSsa_eq_rename conversion.no_phi conversion.graph] at ok
  cases renamed : (plan.cfg.renamePlan f.params config).rename plan.cfg.domTree f.params with
  | error fault => simp [renamed, Except.map] at ok
  | ok result =>
      simp only [renamed, Except.map, Except.ok.injEq, Prod.mk.injEq] at ok
      obtain ⟨rfl, -⟩ := ok
      rfl

/-- Conversion only renames and adds phis. Without its phis the converted function is the split one,
where every argument and every definition of a renamed variable is one of its versions instead and
everything else stays. The phis define versions of renamed variables too, and the definitions that
stand for a renamed variable, as many as there are, have the numbers from zero on, each of them
once.
-/
theorem Function.toSsa_only_renames {f f' : Function} {config : SsaConfig} {summary : SsaSummary}
    (ok : f.toSsa config = .ok (f', summary))
    : ∃ split g, f.split = .ok (split, g) ∧
      let plan := g.renamePlan f.params config
      f' = { split with params := f'.params, body := f'.body }
        ∧ List.Forall₂ plan.RenamesParam split.params f'.params
        ∧ List.Forall₂ plan.RenamesInstruction split.body f'.withoutPhis.body
        ∧ (∀ op ∈ f'.operations, op.isPhi = true →
          ∃ var number, plan.isRenamed var = true ∧ op.dest = some (versionName var number))
        ∧ ∀ var, plan.isRenamed var = true →
          (f.namesFor f' var).Perm
            ((List.range (f.namesFor f' var).length).map (versionName var)) := by
  obtain ⟨plan, initial, state, conversion⟩ := toSsa_eq_ok ok
  refine ⟨_, plan.cfg, split_of_ok conversion.graph, ?_⟩
  rw [conversion.plan_eq]
  obtain ⟨pushed, params⟩ := conversion.params
  have signature := toSsa_same_signature ok
  refine ⟨signature, RenamePlan.forall₂_renameParams params, conversion.forall₂_withoutPhis,
    fun op listed => conversion.exists_version_of_phi listed, fun var renamed => ?_⟩
  have names := conversion.namesFor_perm_range renamed
  have number : (f.namesFor f' var).length = (plan.allDefined f.params).count var := by
    simpa using names.length_eq
  rwa [← number] at names

/-- Doubles a number for as long as a condition holds. Another variable is spelled like a version of
the number.
-/
def doublingBesideVersion : Function where
  name := "double"
  params := [{ name := "x", ty := .int }, { name := "c", ty := .bool }]
  body := [
    .operation { opcode := .const, dest := "x.1", ty := some .int, value := some (.int 7) },
    .operation { opcode := .print, args := ["x.1"] },
    .label "loop",
    .operation { opcode := .add, dest := "x", ty := some .int, args := ["x", "x"] },
    .operation { opcode := .br, args := ["c"], labels := ["done", "loop"] },
    .label "done",
    .operation { opcode := .print, args := ["x"] }]

/-- The parameter, the phi at the loop and the sum have the numbers from zero to two. The variable
that is spelled like the second of them is kept and does not count.
-/
theorem toSsa_only_renames_doublingBesideVersion
    : ∃ f' summary, doublingBesideVersion.toSsa = .ok (f', summary)
        ∧ f'.definitions.count "x.1" = 2
        ∧ (doublingBesideVersion.namesFor f' "x").Perm ["x.0", "x.1", "x.2"] := by
  have divided : doublingBesideVersion.split.toOption.any (fun result =>
      (result.2.globals doublingBesideVersion.params).isGlobal "x") = true := by cbv
  have converted : doublingBesideVersion.toSsa.toOption.any (fun result =>
      result.1.definitions.count "x.1" == 2
        && (doublingBesideVersion.namesFor result.1 "x").length == 3) = true := by cbv
  obtain ⟨⟨_, g⟩, accepted, global⟩ := exists_eq_ok_of_any divided
  obtain ⟨⟨f', summary⟩, ok, found⟩ := exists_eq_ok_of_any converted
  simp only [Bool.and_eq_true, beq_iff_eq] at found
  obtain ⟨split, g', accepted', -, -, -, -, numbered⟩ := Function.toSsa_only_renames ok
  obtain ⟨-, rfl⟩ := Prod.mk.inj (Except.ok.inj (accepted.symm.trans accepted'))
  have names := numbered "x" (by rw [RenamePlan.isRenamed, Bool.or_eq_true]; exact .inl global)
  rw [found.2] at names
  exact ⟨f', summary, ok, found.1, names⟩

end ThreeAddress
