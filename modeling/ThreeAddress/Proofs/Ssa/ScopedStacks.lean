import ThreeAddress.Proofs.Ssa.Numbering
import ThreeAddress.Proofs.Ssa.Visits

/-! The walk of a renaming enters every reachable block once, behind its immediate dominator. It
finds on the stacks the versions of the parameters and of the blocks that strictly dominate the one
that it enters, and nothing else.
-/

namespace ThreeAddress

-----------------------------------------------------------------------------------------
-- Empty stacks
-----------------------------------------------------------------------------------------

namespace Versions

variable {versions : Versions}

/-- No empty stack is kept. -/
def NoneEmpty (versions : Versions) : Prop :=
  ∀ var : String, versions.scopes[var]? ≠ some []

theorem noneEmpty_empty : empty.NoneEmpty := by
  intro var
  simp [empty]

theorem NoneEmpty.fresh (kept : versions.NoneEmpty) (var : String)
    : (versions.fresh var).2.NoneEmpty := by
  intro other
  simp only [Versions.fresh, Std.ExtTreeMap.getElem?_insert]
  split
  · simp
  · exact kept other

theorem NoneEmpty.pop (kept : versions.NoneEmpty) (var : String)
    : (versions.pop var).NoneEmpty := by
  intro other
  unfold Versions.pop
  split
  · simp only [Std.ExtTreeMap.getElem?_insert]
    split
    · simp
    · exact kept other
  · simp only [Std.ExtTreeMap.getElem?_erase]
    split
    · simp
    · exact kept other

theorem NoneEmpty.foldl_pop (kept : versions.NoneEmpty) (vars : List String)
    : (vars.foldl Versions.pop versions).NoneEmpty := by
  induction vars generalizing versions with
  | nil => exact kept
  | cons var rest ih => exact ih (kept.pop var)

/-- Where no version is in scope, the versions are balanced. -/
theorem NoneEmpty.isBalanced (kept : versions.NoneEmpty) (none : ∀ var, versions.stack var = [])
    : versions.isBalanced = true := by
  rw [Versions.isBalanced, Std.ExtTreeMap.isEmpty_iff]
  apply Std.ExtTreeMap.ext_getElem?
  intro var
  cases found : versions.scopes[var]? with
  | none => simp
  | some stack =>
      have same : versions.stack var = stack := by
        rw [Versions.stack, Std.ExtTreeMap.getD_eq_getD_getElem?, found, Option.getD_some]
      exact absurd (found.trans (congrArg some (same.symm.trans (none var)))) (kept var)

end Versions

namespace RenamePlan

variable {plan : RenamePlan} {versions : Versions} {params : List Param} {b c : plan.cfg.Block}

theorem noneEmpty_define (kept : versions.NoneEmpty) (var : String)
    : (plan.define versions var).2.1.NoneEmpty := by
  cases renamed : plan.isRenamed var with
  | false =>
      rw [define_of_not_isRenamed renamed]
      exact kept
  | true =>
      rw [define_of_isRenamed renamed]
      exact kept.fresh var

theorem noneEmpty_defineAll (kept : versions.NoneEmpty) (vars : List String)
    : (plan.defineAll versions vars).2.1.NoneEmpty := by
  induction vars generalizing versions with
  | nil => exact kept
  | cons var rest ih => exact ih (noneEmpty_define kept var)

-----------------------------------------------------------------------------------------
-- Versions that are created
-----------------------------------------------------------------------------------------

/-- The versions of a variable among names that stand next to variables. A variable that is not
renamed has none.
-/
def versionsAmong (plan : RenamePlan) (var : String) (vars names : List String) : List String :=
  if plan.isRenamed var then namesNextTo var (vars.zip names) else []

/-- The versions of a variable that the parameters create. -/
def createdByParams (plan : RenamePlan) (params : List Param) (var : String) : List String :=
  plan.versionsAmong var (params.map Param.name)
    ((plan.renameParams .empty params).1.map Param.name)

/-- The versions of a variable that a block creates, those of its phis first. -/
def createdIn (plan : RenamePlan) (var : String) (entered : plan.cfg.Block × RenamedBlock)
    : List String :=
  plan.versionsAmong var (plan.definedIn entered.1)
    (entered.2.phiDests ++ entered.2.body.filterMap Operation.dest)

/-- Definitions one after another push the versions that they create, by induction on the variables.
-/
theorem stack_defineAll (versions : Versions) (vars : List String) (var : String)
    : (plan.defineAll versions vars).2.1.stack var
      = (plan.versionsAmong var vars (plan.defineAll versions vars).1).reverse
        ++ versions.stack var := by
  induction vars generalizing versions with
  | nil => simp [defineAll, versionsAmong, namesNextTo]
  | cons first rest ih =>
      rw [defineAll_cons, ih, versionsAmong, versionsAmong]
      by_cases same : first = var
      · subst same
        cases renamed : plan.isRenamed first with
        | false => simp [define_of_not_isRenamed renamed]
        | true => simp [define_of_isRenamed renamed, Versions.stack_fresh, namesNextTo]
      · simp [stack_define_of_ne versions same, namesNextTo, same]

theorem stack_renameParams (params : List Param) (var : String)
    : ((plan.renameParams .empty params).2.1.stack var).reverse
      = plan.createdByParams params var := by
  have defined := plan.renameParams_eq .empty params
  have stack := plan.stack_defineAll .empty (params.map Param.name) var
  rw [defined, Versions.stack_empty, List.append_nil] at stack
  rw [stack, List.reverse_reverse, createdByParams]

theorem stack_exit (placed : plan.PhisRenamed) {block : RenamedBlock} {pushed : List String}
    (ok : plan.renameBlock versions b = .ok (block, pushed)) (var : String)
    : (block.exit.stack var).reverse
      = (versions.stack var).reverse ++ plan.createdIn var (b, block) := by
  have stack := plan.stack_defineAll versions (plan.definedIn b) var
  rw [renameBlock_defines placed ok] at stack
  rw [stack, List.reverse_append, List.reverse_reverse, createdIn]

/-- What is on the stacks when a block is entered: the versions that the parameters and the blocks
that strictly dominate it have created, oldest first, dominators in front of those that they
dominate.
-/
def FindsScopes (plan : RenamePlan) (params : List Param)
    (done : List (plan.cfg.Block × RenamedBlock)) (stack : String → List String)
    (b : plan.cfg.Block)
    : Prop :=
  ∃ above : List (plan.cfg.Block × RenamedBlock), (∀ entered ∈ above, entered ∈ done)
    ∧ (∀ d, d ∈ above.map Prod.fst ↔ plan.cfg.StrictlyPathDominates d b)
    ∧ (above.map Prod.fst).Pairwise plan.cfg.StrictlyPathDominates
    ∧ ∀ var, (stack var).reverse
        = plan.createdByParams params var ++ above.flatMap (plan.createdIn var)

theorem passedOn_findsScopes (plan : RenamePlan) (placed : plan.PhisRenamed) (params : List Param)
    : Visiting.PassedOn plan (plan.FindsScopes params) where
  later := by
    rintro done more stack b ⟨above, listed, rest⟩
    exact ⟨above, fun entered member => List.mem_append_left _ (listed entered member), rest⟩
  below := by
    rintro done versions b c block pushed ⟨above, listed, dominators, ordered, scopes⟩ renamed dom
    refine ⟨above ++ [(b, block)], ?_, fun d => ?_, ?_, fun var => ?_⟩
    · intro entered member
      rcases List.mem_append.mp member with old | new
      · exact List.mem_append_left _ (listed entered old)
      · exact List.mem_append_right _ new
    -- What strictly dominates the lower block is the upper one, or strictly dominates that.
    · rw [List.map_append, List.mem_append, dominators]
      constructor
      · rintro (strict | same)
        · exact strict.trans_left dom.1.2
        · exact List.mem_singleton.mp same ▸ dom.1
      · intro strict
        by_cases same : d = b
        · exact .inr (List.mem_singleton.mpr same)
        · exact .inl ⟨same, dom.2 d strict⟩
    · rw [List.map_append, List.pairwise_append]
      refine ⟨ordered, List.pairwise_singleton _ _, fun d member e last => ?_⟩
      rw [List.mem_singleton.mp last]
      exact (dominators d).mp member
    · rw [stack_exit placed renamed, scopes, List.flatMap_append, List.flatMap_singleton,
        List.append_assoc]

theorem findsScopes_entry (plan : RenamePlan) (params : List Param)
    : plan.FindsScopes params [] (Visiting.start plan params).versions.stack plan.cfg.entry := by
  refine ⟨[], by simp, fun d => ?_, .nil, fun var => ?_⟩
  · refine iff_of_false List.not_mem_nil fun strict => ?_
    exact strict.1 strict.2.eq_entry
  · rw [Visiting.start, stack_renameParams, List.flatMap_nil, List.append_nil]

end RenamePlan

-----------------------------------------------------------------------------------------
-- Which blocks are entered, and when
-----------------------------------------------------------------------------------------

/-- Blocks in an order in which a walk down the dominator tree can enter them: each is reachable,
none comes twice, and immediate dominators come in front.
-/
structure FlowGraph.EntersInOrder (g : FlowGraph) (entered : List g.Block) : Prop where
  nodup : entered.Nodup
  reachable : ∀ b ∈ entered, g.Reachable b
  dominator_first
    : ∀ front b back, entered = front ++ b :: back →
        ∀ d, g.ImmediatelyDominates d b → d ∈ front

theorem FlowGraph.EntersInOrder.nil (g : FlowGraph) : g.EntersInOrder [] where
  nodup := List.nodup_nil
  reachable _ member := nomatch member
  dominator_first front b back split := by simp at split

theorem FlowGraph.EntersInOrder.concat {g : FlowGraph} {entered : List g.Block} {b : g.Block}
    (ordered : g.EntersInOrder entered) (new : b ∉ entered) (reached : g.Reachable b)
    (ready : ∀ d, g.ImmediatelyDominates d b → d ∈ entered)
    : g.EntersInOrder (entered ++ [b]) where
  nodup := List.nodup_append.mpr ⟨ordered.nodup, List.nodup_singleton b, fun c old d last same =>
    new (List.mem_singleton.mp last ▸ same ▸ old)⟩
  reachable c member := by
    rcases List.mem_append.mp member with old | last
    · exact ordered.reachable c old
    · exact List.mem_singleton.mp last ▸ reached
  dominator_first front c back split d dom := by
    rcases List.eq_nil_or_concat' back with rfl | ⟨init, last, rfl⟩
    · obtain ⟨rfl, same⟩ := List.append_inj' split rfl
      obtain rfl := List.singleton_inj.mp same
      exact ready d dom
    · rw [← List.cons_append, ← List.append_assoc] at split
      exact ordered.dominator_first front c init (List.append_inj' split rfl).1 d dom

namespace Visiting

variable {plan : RenamePlan} {params : List Param}

/-- The blocks entered so far. -/
def entered (visiting : Visiting plan) : List plan.cfg.Block :=
  visiting.done.map Prod.fst

/-- The blocks that are to be entered, other than those below them. -/
def awaited (pending : List (Visit plan)) : List plan.cfg.Block :=
  pending.filterMap fun
    | .enter b => some b
    | .leave _ => none

@[simp] theorem awaited_enter (b : plan.cfg.Block) (rest : List (Visit plan))
    : awaited (.enter b :: rest) = b :: awaited rest :=
  rfl

@[simp] theorem awaited_leave (pushed : List String) (rest : List (Visit plan))
    : awaited (.leave pushed :: rest) = awaited rest :=
  rfl

@[simp] theorem awaited_enter_all (blocks : List plan.cfg.Block) (rest : List (Visit plan))
    : awaited (blocks.map .enter ++ rest) = blocks ++ awaited rest := by
  induction blocks with
  | nil => rfl
  | cons b others ih => rw [List.map_cons, List.cons_append, awaited_enter, ih, List.cons_append]

/-- A walk that goes down the tree in order. Every reachable block has been entered or is below
exactly one of those that are to be entered, whose immediate dominators have been entered. The
blocks entered so far have found the scopes that they should, and the stacks are right for what is
left to do. No empty stack is kept.
-/
structure Orderly (params : List Param) (visiting : Visiting plan) : Prop where
  once
    : ∀ c, plan.cfg.Reachable c →
        visiting.entered.count c
          + (awaited visiting.pending).countP (plan.cfg.domTree.dominates · c) = 1
  reachable : ∀ b ∈ awaited visiting.pending, plan.cfg.Reachable b
  ready
    : ∀ b ∈ awaited visiting.pending, ∀ d, plan.cfg.ImmediatelyDominates d b →
        d ∈ visiting.entered
  inOrder : plan.cfg.EntersInOrder visiting.entered
  found
    : ∀ old ∈ visiting.done, plan.FindsScopes params visiting.done old.2.entry.stack old.1
  due
    : Due (plan.FindsScopes params visiting.done) (start plan params).versions.stack
        visiting.versions.stack visiting.pending
  noneEmpty : visiting.versions.NoneEmpty

theorem orderly_start (plan : RenamePlan) (params : List Param)
    : (start plan params).Orderly params where
  once c reached := by
    have top := (FlowGraph.dominates_domTree plan.cfg.entry c).mpr (.entry reached)
    simp [start, entered, awaited, top]
  reachable b member := by
    obtain rfl : b = plan.cfg.entry := by simpa [start, awaited] using member
    exact plan.cfg.reachable_entry
  ready b member d dom := by
    obtain rfl : b = plan.cfg.entry := by simpa [start, awaited] using member
    exact absurd dom.1.2.eq_entry dom.1.1
  inOrder := .nil plan.cfg.toFlowGraph
  found _ member := nomatch member
  due := ⟨plan.findsScopes_entry params, rfl⟩
  noneEmpty := by
    have defined := plan.renameParams_eq .empty params
    have kept := plan.noneEmpty_defineAll Versions.noneEmpty_empty (params.map Param.name)
    rw [defined] at kept
    exact kept

/-- A block that is to be entered has not been entered before. -/
theorem Orderly.not_mem_entered {visiting : Visiting plan} (orderly : visiting.Orderly params)
    {b : plan.cfg.Block} (next : b ∈ awaited visiting.pending)
    : b ∉ visiting.entered := by
  intro old
  have reached := orderly.reachable b next
  have once := orderly.once b reached
  have before := List.count_pos_iff.mpr old
  have again : 0 < (awaited visiting.pending).countP (plan.cfg.domTree.dominates · b) :=
    List.countP_pos_iff.mpr ⟨b, next, (FlowGraph.dominates_domTree b b).mpr (.refl reached)⟩
  omega

/-- A block that is to be entered may be entered next. -/
theorem Orderly.entersInOrder_concat {visiting : Visiting plan} (orderly : visiting.Orderly params)
    {b : plan.cfg.Block} (next : b ∈ awaited visiting.pending)
    : plan.cfg.EntersInOrder (visiting.entered ++ [b]) :=
  orderly.inOrder.concat (orderly.not_mem_entered next) (orderly.reachable b next)
    (orderly.ready b next)

/-- A step keeps the walk in order. -/
theorem Orderly.next {before after : Visiting plan} (orderly : before.Orderly params)
    (placed : plan.PhisRenamed) (step : before.next? = .ok (some after))
    : after.Orderly params := by
  have passed := plan.passedOn_findsScopes placed params
  have due := passed.due_next placed step orderly.due
  rcases next?_eq_some step with ⟨b, rest, block, pushed, top, renamed, rfl⟩
    | ⟨pushed, rest, top, rfl⟩
  · have next : b ∈ awaited before.pending := by simp [top]
    have above : plan.cfg.Reachable b := orderly.reachable b next
    have inOrder := orderly.entersInOrder_concat next
    obtain ⟨once, reachable, ready, -, found, finds, noneEmpty⟩ := orderly
    rw [top] at once reachable ready finds
    have nowEntered (versions : Versions) (pending : List (Visit plan))
        : entered ⟨⟨versions, before.done ++ [(b, block)]⟩, pending⟩ = before.entered ++ [b] := by
      simp [entered]
    refine ⟨?once, ?reachable, ?ready, ?inOrder, ?found, due, ?noneEmpty⟩ <;>
      simp only [nowEntered, awaited_enter_all, awaited_leave]
    case once =>
      -- The block makes way for its children: what was below it is it, or below one of them.
      intro c toC
      have before := once c toC
      have below := FlowGraph.countP_children_add above toC
      simp only [awaited_enter, List.countP_cons, List.countP_append, List.count_append,
        List.count_singleton, beq_iff_eq] at before ⊢
      omega
    case reachable =>
      intro c member
      rcases List.mem_append.mp member with child | old
      · exact (FlowGraph.mem_children_domTree.mp child).1.2.1
      · exact reachable c (List.mem_cons_of_mem _ old)
    case ready =>
      intro c member d dom
      rcases List.mem_append.mp member with child | old
      -- The only immediate dominator of a child is the block that has just been entered.
      · obtain rfl := dom.unique (FlowGraph.mem_children_domTree.mp child)
        exact List.mem_append_right _ (List.mem_singleton_self _)
      · exact List.mem_append_left _ (ready c (List.mem_cons_of_mem _ old) d dom)
    case inOrder => exact inOrder
    case found =>
      intro old member
      rcases List.mem_append.mp member with member | last
      · exact passed.later (found old member)
      · obtain rfl := List.mem_singleton.mp last
        obtain ⟨-, -, -, -, -, top⟩ := RenamePlan.renameBlock_eq_ok renamed
        rw [top]
        exact passed.later finds.1
    case noneEmpty =>
      have kept := plan.noneEmpty_defineAll noneEmpty (plan.definedIn b)
      rw [RenamePlan.renameBlock_defines placed renamed] at kept
      exact kept
  · obtain ⟨once, reachable, ready, inOrder, found, -, noneEmpty⟩ := orderly
    rw [top] at once reachable ready
    exact ⟨once, reachable, ready, inOrder, found, due, noneEmpty.foldl_pop pushed⟩

/-- Whatever a walk comes to is in order, by induction on the steps. -/
theorem orderly_of_leads (placed : plan.PhisRenamed) {visiting : Visiting plan}
    (leads : (start plan params).Leads visiting)
    : visiting.Orderly params := by
  induction leads with
  | refl => exact orderly_start plan params
  | tail _ step ih => exact ih.next placed step

/-- When nothing is left to do, the reachable blocks have been entered and no others. -/
theorem Orderly.mem_entered_iff {visiting : Visiting plan} (orderly : visiting.Orderly params)
    (finished : visiting.pending = []) (b : plan.cfg.Block)
    : b ∈ visiting.entered ↔ plan.cfg.Reachable b := by
  refine ⟨orderly.inOrder.reachable b, fun reached => ?_⟩
  have once := orderly.once b reached
  rw [finished] at once
  exact List.count_pos_iff.mp (by simpa [awaited] using once.ge)

/-- When nothing is left to do, taking the versions of the parameters out of scope leaves no version
in scope.
-/
theorem Orderly.isBalanced {visiting : Visiting plan} (orderly : visiting.Orderly params)
    (finished : visiting.pending = []) {params' : List Param} {pushed : List String}
    (renamed : plan.renameParams .empty params = (params', (start plan params).versions, pushed))
    : (pushed.foldl Versions.pop visiting.versions).isBalanced = true := by
  have restored := orderly.due
  rw [finished, Due] at restored
  have extended := plan.extends_defineAll .empty (params.map Param.name)
  rw [plan.renameParams_eq, renamed] at extended
  refine (orderly.noneEmpty.foldl_pop pushed).isBalanced fun var => ?_
  rw [Versions.stack_foldl_pop, restored, extended.stack_drop, Versions.stack_empty]

end Visiting

/-- Whatever the walk of a renaming comes to, blocks have been entered in order, and the next block
to be entered comes in order and finds the scopes that it should. A renaming that succeeds walks to
the end. The reachable blocks have been entered and no others, each has found the scopes that it
should, and no version is in scope any more. A renaming that fails does so where the walk comes to a
block that cannot be renamed.
-/
theorem Cfg.renaming_keeps_scopes (g : Cfg) (params : List Param) (config : SsaConfig)
    : let plan := g.renamePlan params config
      (∀ visiting, (Visiting.start plan params).Leads visiting →
        g.EntersInOrder visiting.entered
        ∧ ∀ b rest, visiting.pending = .enter b :: rest →
          g.EntersInOrder (visiting.entered ++ [b])
          ∧ plan.FindsScopes params visiting.done visiting.versions.stack b)
      ∧ (∀ params' state, plan.rename g.domTree params = .ok (params', state) →
        (∃ final, (Visiting.start plan params).Leads ⟨⟨final, state.done⟩, []⟩)
        ∧ g.EntersInOrder (state.done.map Prod.fst)
        ∧ (∀ b, b ∈ state.done.map Prod.fst ↔ g.Reachable b)
        ∧ (∀ entered ∈ state.done,
          plan.FindsScopes params state.done entered.2.entry.stack entered.1)
        ∧ state.versions.isBalanced = true)
      ∧ ∀ fault, plan.rename g.domTree params = .error fault →
        ∃ visiting b rest, (Visiting.start plan params).Leads visiting
          ∧ visiting.pending = .enter b :: rest
          ∧ plan.renameBlock visiting.versions b = .error fault := by
  intro plan
  have placed := g.phisRenamed_renamePlan params config
  refine ⟨fun visiting leads => ?_, fun params' state ok => ?_, fun fault failed => ?_⟩
  · have orderly := Visiting.orderly_of_leads placed leads
    refine ⟨orderly.inOrder, fun b rest top => ⟨?_, ?_⟩⟩
    · exact orderly.entersInOrder_concat (by rw [top]; exact List.mem_cons_self)
    · have due := orderly.due
      rw [top] at due
      exact due.1
  · obtain ⟨pushed, final, renamed, leads, versions⟩ := Visiting.leads_of_rename_eq_ok ok
    have orderly := Visiting.orderly_of_leads placed leads
    refine ⟨⟨final, leads⟩, orderly.inOrder, orderly.mem_entered_iff rfl, orderly.found, ?_⟩
    rw [versions]
    exact orderly.isBalanced rfl renamed
  · exact Visiting.exists_leads_of_rename_eq_error failed

/-- Squares a number for as long as a condition holds. The loop defines the number twice beside its
phi, and the block that goes back to it comes in front of the one that it ends in.
-/
def squaringLoop : Function where
  name := "square"
  params := [{ name := "x", ty := .int }, { name := "c", ty := .bool }]
  body := [
    .operation { opcode := .nop },
    .label "loop",
    .operation { opcode := .mul, dest := "x", ty := some .int, args := ["x", "x"] },
    .operation { opcode := .add, dest := "x", ty := some .int, args := ["x", "x"] },
    .operation { opcode := .br, args := ["c"], labels := ["again", "done"] },
    .label "again",
    .operation { opcode := .sub, dest := "x", ty := some .int, args := ["x", "x"] },
    .operation { opcode := .jmp, labels := ["loop"] },
    .label "done",
    .operation { opcode := .print, args := ["x"] }]

/-- The last block finds the versions of the parameter and of the loop, but not the one of the block
beside it, which has the number four.
-/
theorem renaming_keeps_scopes_squaringLoop
    : ∃ g params' state, Cfg.ofFunction? squaringLoop = .ok g
        ∧ (g.renamePlan squaringLoop.params {}).rename g.domTree squaringLoop.params
          = .ok (params', state)
        ∧ state.versions.isBalanced = true
        ∧ state.versions.count "x" = 5
        ∧ ∃ last ∈ state.done, g.label last.1 = "done"
          ∧ (last.2.entry.stack "x").reverse = ["x.0", "x.1", "x.2", "x.3"]
          ∧ (g.renamePlan squaringLoop.params {}).FindsScopes squaringLoop.params state.done
            last.2.entry.stack last.1 := by
  have renames : (Cfg.ofFunction? squaringLoop).toOption.any (fun g =>
      ((g.renamePlan squaringLoop.params {}).rename g.domTree squaringLoop.params).toOption.any
        fun result => result.2.versions.count "x" == 5 && result.2.done.any fun last =>
          g.label last.1 == "done"
            && (last.2.entry.stack "x").reverse == ["x.0", "x.1", "x.2", "x.3"]) = true := by
    cbv
  obtain ⟨g, graph, renames⟩ := exists_eq_ok_of_any renames
  obtain ⟨⟨params', state⟩, ok, found⟩ := exists_eq_ok_of_any renames
  simp only [Bool.and_eq_true, beq_iff_eq, List.any_eq_true] at found
  obtain ⟨created, last, entered, named, stack⟩ := found
  obtain ⟨-, succeeds, -⟩ := g.renaming_keeps_scopes squaringLoop.params {}
  obtain ⟨-, -, -, finds, balanced⟩ := succeeds params' state ok
  exact ⟨g, params', state, graph, ok, balanced, created, last, entered, named, stack,
    finds last entered⟩

end ThreeAddress
