import Mathlib.Logic.Relation
import ThreeAddress.Proofs.Ssa.Converted

/-! The walk down the dominator tree step by step, with one list of what is left to do. A block is
entered in front of its children and left behind them.
-/

namespace ThreeAddress

/-- Something that is left to do in a walk: a block is entered, or variables that got versions in
one lose them again.
-/
inductive Visit (plan : RenamePlan) where
  | enter (b : plan.cfg.Block)
  | leave (pushed : List String)

/-- A renaming in progress with all that is left to do, what is next in front. -/
structure Visiting (plan : RenamePlan) extends Renaming plan where
  pending : List (Visit plan)

namespace Visiting

variable {plan : RenamePlan}

/-- Does what is next. When a block has been renamed, its children are entered before the block is
left. In the end there is nothing left to do.
-/
def next? (visiting : Visiting plan) : Except AnalysisError (Option (Visiting plan)) :=
  match visiting.pending with
  | [] => .ok none
  | .enter b :: rest =>
    (plan.renameBlock visiting.versions b).map fun (block, pushed) =>
      some {
        versions := block.exit
        done := visiting.done ++ [(b, block)]
        pending := (plan.cfg.domTree.children b).map .enter ++ .leave pushed :: rest }
  | .leave pushed :: rest =>
    .ok (some {
      visiting with
      versions := pushed.foldl Versions.pop visiting.versions
      pending := rest })

/-- The second state comes after the first one in a walk, or is the same. -/
def Leads : Visiting plan → Visiting plan → Prop :=
  Relation.ReflTransGen fun before after => before.next? = .ok (some after)

/-- Where the walk of a renaming starts: the parameters have been renamed, and the entry is next. -/
def start (plan : RenamePlan) (params : List Param) : Visiting plan where
  versions := (plan.renameParams .empty params).2.1
  pending := [.enter plan.cfg.entry]

theorem next?_enter {versions : Versions} {done : List (plan.cfg.Block × RenamedBlock)}
    {b : plan.cfg.Block} {rest : List (Visit plan)} {block : RenamedBlock} {pushed : List String}
    (renamed : plan.renameBlock versions b = .ok (block, pushed))
    : next? ⟨⟨versions, done⟩, .enter b :: rest⟩
      = .ok (some ⟨⟨block.exit, done ++ [(b, block)]⟩,
          (plan.cfg.domTree.children b).map .enter ++ .leave pushed :: rest⟩) := by
  simp only [next?, renamed, Except.map]

/-- A step enters a block that can be renamed, or leaves one. -/
theorem next?_eq_some {before after : Visiting plan} (step : before.next? = .ok (some after))
    : (∃ b rest block pushed, before.pending = .enter b :: rest
          ∧ plan.renameBlock before.versions b = .ok (block, pushed)
          ∧ after = ⟨⟨block.exit, before.done ++ [(b, block)]⟩,
              (plan.cfg.domTree.children b).map .enter ++ .leave pushed :: rest⟩)
        ∨ ∃ pushed rest, before.pending = .leave pushed :: rest
          ∧ after = ⟨⟨pushed.foldl Versions.pop before.versions, before.done⟩, rest⟩ := by
  obtain ⟨⟨versions, done⟩, pending⟩ := before
  match pending with
  | [] => simp [next?] at step
  | .enter b :: rest =>
      cases renamed : plan.renameBlock versions b with
      | error fault => simp [next?, renamed, Except.map] at step
      | ok result =>
          obtain ⟨block, pushed⟩ := result
          rw [next?_enter renamed] at step
          exact .inl ⟨b, rest, block, pushed, rfl, renamed, by simpa using step.symm⟩
  | .leave pushed :: rest =>
      exact .inr ⟨pushed, rest, rfl, by simpa [next?] using step.symm⟩

-----------------------------------------------------------------------------------------
-- Steps and recursion
-----------------------------------------------------------------------------------------

/-- A finished walk over some blocks is done step by step, whatever is left to do after it. By
induction on the walk.
-/
theorem leads_of_walked {versions final : Versions} {blocks : List plan.cfg.Block}
    {entered : List (plan.cfg.Block × RenamedBlock)}
    (walked : plan.Walked versions blocks entered final)
    (done : List (plan.cfg.Block × RenamedBlock)) (rest : List (Visit plan))
    : Leads ⟨⟨versions, done⟩, blocks.map .enter ++ rest⟩ ⟨⟨final, done ++ entered⟩, rest⟩ := by
  induction walked generalizing done rest with
  | nil =>
      rw [List.append_nil]
      exact .refl
  | @cons versions inside final b block pushed others below beside renamed _ _ children siblings =>
      have first := children (done ++ [(b, block)]) (.leave pushed :: (others.map .enter ++ rest))
      have second := siblings (done ++ [(b, block)] ++ below) rest
      have listed : done ++ (b, block) :: (below ++ beside)
          = done ++ [(b, block)] ++ below ++ beside := by simp
      rw [listed]
      exact .head (next?_enter renamed) (first.trans (.head rfl second))

/-- Renaming a block and everything below it fails in the block itself, or below it after the block
has been renamed.
-/
theorem renameBelow_eq_error {tree : DomTree plan.cfg.toFlowGraph} {depth : Nat}
    {state : Renaming plan} {b : plan.cfg.Block} {fault : AnalysisError}
    (failed : plan.renameBelow tree (depth + 1) state b = .error fault)
    : plan.renameBlock state.versions b = .error fault
      ∨ ∃ block pushed, plan.renameBlock state.versions b = .ok (block, pushed)
        ∧ (tree.children b).foldlM (plan.renameBelow tree depth)
          { versions := block.exit, done := state.done ++ [(b, block)] } = .error fault := by
  rw [RenamePlan.renameBelow] at failed
  cases renamed : plan.renameBlock state.versions b with
  | error other =>
      rw [renamed] at failed
      exact .inl (congrArg Except.error (Except.error.inj failed))
  | ok result =>
      obtain ⟨block, pushed⟩ := result
      refine .inr ⟨block, pushed, rfl, ?_⟩
      rw [renamed] at failed
      cases children : (tree.children b).foldlM (plan.renameBelow tree depth)
          { versions := block.exit, done := state.done ++ [(b, block)] } with
      | error other => simpa [children, bind, Except.bind] using failed
      | ok inside => simp [children, bind, Except.bind] at failed

/-- Where the recursion fails, the steps come to a block that cannot be renamed, with the same
failure. By induction on the depth, and on the blocks on one level.
-/
theorem exists_leads_of_error {depth : Nat} {blocks : List plan.cfg.Block} {state : Renaming plan}
    {fault : AnalysisError}
    (deep : ∀ b ∈ blocks, plan.cfg.size < depth + plan.cfg.level b)
    (failed : blocks.foldlM (plan.renameBelow plan.cfg.domTree depth) state = .error fault)
    (rest : List (Visit plan))
    : ∃ last b more, Leads ⟨state, blocks.map .enter ++ rest⟩ last
        ∧ last.pending = .enter b :: more
        ∧ plan.renameBlock last.versions b = .error fault := by
  induction depth generalizing blocks state rest with
  | zero =>
      match blocks with
      | [] => cases failed
      | b :: _ =>
          have high := deep b List.mem_cons_self
          have low := FlowGraph.level_le b
          omega
  | succ depth ih =>
      induction blocks generalizing state with
      | nil => cases failed
      | cons b others siblings =>
          have deepTop := deep b List.mem_cons_self
          rw [List.foldlM_cons] at failed
          cases below : plan.renameBelow plan.cfg.domTree (depth + 1) state b with
          | ok next =>
              rw [below] at failed
              have alone : [b].foldlM (plan.renameBelow plan.cfg.domTree (depth + 1)) state
                  = .ok next := by
                rw [List.foldlM_cons, below]
                rfl
              obtain ⟨entered, listed, walk⟩ := RenamePlan.walked_of_foldlM
                (fun c member => List.mem_singleton.mp member ▸ deepTop) alone
              obtain ⟨last, c, more, leads, top⟩ :=
                siblings (fun c member => deep c (List.mem_cons_of_mem _ member)) failed
              have first := leads_of_walked walk state.done (others.map .enter ++ rest)
              rw [← listed] at first
              exact ⟨last, c, more, first.trans leads, top⟩
          | error other =>
              rw [below] at failed
              obtain rfl := Except.error.inj failed
              rcases renameBelow_eq_error below with here | ⟨block, pushed, renamed, children⟩
              · exact ⟨_, b, _, .refl, rfl, here⟩
              · have lower : ∀ c ∈ plan.cfg.domTree.children b,
                    plan.cfg.size < depth + plan.cfg.level c := by
                  intro c child
                  have higher := (FlowGraph.mem_children_domTree.mp child).1.level_lt
                  omega
                obtain ⟨last, c, more, leads, top⟩ :=
                  ih lower children (.leave pushed :: (others.map .enter ++ rest))
                exact ⟨last, c, more, .head (next?_enter renamed) leads, top⟩

/-- A renaming that succeeds walks until there is nothing left to do, and then takes the versions of
the parameters out of scope.
-/
theorem leads_of_rename_eq_ok {params params' : List Param} {state : Renaming plan}
    (ok : plan.rename plan.cfg.domTree params = .ok (params', state))
    : ∃ pushed final,
        plan.renameParams .empty params = (params', (start plan params).versions, pushed)
        ∧ (start plan params).Leads ⟨⟨final, state.done⟩, []⟩
        ∧ state.versions = pushed.foldl Versions.pop final := by
  obtain ⟨initial, pushed, final, renamed, walk, versions⟩ := RenamePlan.rename_eq_ok ok
  have first : (start plan params).versions = initial := by rw [start, renamed]
  refine ⟨pushed, final, first ▸ renamed, ?_, versions⟩
  have leads := leads_of_walked walk [] []
  rw [← first] at leads
  exact leads

/-- A renaming that fails walks to a block that cannot be renamed. -/
theorem exists_leads_of_rename_eq_error {params : List Param} {fault : AnalysisError}
    (failed : plan.rename plan.cfg.domTree params = .error fault)
    : ∃ last b more, (start plan params).Leads last ∧ last.pending = .enter b :: more
        ∧ plan.renameBlock last.versions b = .error fault := by
  rcases named : plan.renameParams .empty params with ⟨params', initial, pushed⟩
  have first : start plan params = ⟨{ versions := initial }, [.enter plan.cfg.entry]⟩ := by
    rw [start, named]
  have walk : [plan.cfg.entry].foldlM (plan.renameBelow plan.cfg.domTree plan.cfg.size)
      { versions := initial } = .error fault := by
    rw [RenamePlan.rename, named] at failed
    rw [List.foldlM_cons]
    cases below : plan.renameBelow plan.cfg.domTree plan.cfg.size { versions := initial }
        plan.cfg.entry with
    | error other => simpa [below, bind, Except.bind] using failed
    | ok state => simp [below, bind, Except.bind] at failed
  rw [first]
  refine exists_leads_of_error (fun b entry => ?_) walk []
  rw [List.mem_singleton.mp entry, FlowGraph.level_entry]
  omega

-----------------------------------------------------------------------------------------
-- What blocks find when they are entered
-----------------------------------------------------------------------------------------

/-- Something that blocks find in scope, given what has been done before, and pass on to the blocks
that they immediately dominate. What is done later does not take it back.
-/
structure PassedOn (plan : RenamePlan)
    (Finds : List (plan.cfg.Block × RenamedBlock) → (String → List String) → plan.cfg.Block → Prop)
    : Prop where
  later
    : ∀ {done more : List (plan.cfg.Block × RenamedBlock)} {stack : String → List String}
        {b : plan.cfg.Block},
        Finds done stack b → Finds (done ++ more) stack b
  below
    : ∀ {done : List (plan.cfg.Block × RenamedBlock)} {versions : Versions} {b c : plan.cfg.Block}
        {block : RenamedBlock} {pushed : List String},
        Finds done versions.stack b → plan.renameBlock versions b = .ok (block, pushed) →
          plan.cfg.ImmediatelyDominates b c → Finds (done ++ [(b, block)]) block.exit.stack c

/-- What is left to do will find the right versions. A block that is entered leaves the stacks as it
finds them when it is left, so that what comes behind it can be judged by the stacks in front of it.
In the end the stacks are as they were at the start.
-/
def Due (Finds : (String → List String) → plan.cfg.Block → Prop) (initial : String → List String)
    : (String → List String) → List (Visit plan) → Prop
  | stack, [] => stack = initial
  | stack, .enter b :: rest => Finds stack b ∧ Due Finds initial stack rest
  | stack, .leave pushed :: rest =>
    Due Finds initial (fun var => (stack var).drop (pushed.count var)) rest

variable {initial stack : String → List String}
  {Finds : List (plan.cfg.Block × RenamedBlock) → (String → List String) → plan.cfg.Block → Prop}

theorem Due.mono {First Second : (String → List String) → plan.cfg.Block → Prop}
    (imp : ∀ stack b, First stack b → Second stack b) {pending : List (Visit plan)}
    (due : Due First initial stack pending)
    : Due Second initial stack pending := by
  induction pending generalizing stack with
  | nil => exact due
  | cons visit rest ih =>
      cases visit with
      | enter b => exact ⟨imp stack b due.1, ih due.2⟩
      | leave pushed => exact @ih (fun var => (stack var).drop (pushed.count var)) due

theorem Due.enter_all {First : (String → List String) → plan.cfg.Block → Prop}
    {blocks : List plan.cfg.Block} (find : ∀ b ∈ blocks, First stack b) {rest : List (Visit plan)}
    (due : Due First initial stack rest)
    : Due First initial stack (blocks.map .enter ++ rest) := by
  induction blocks with
  | nil => exact due
  | cons b others ih =>
      exact ⟨find b List.mem_cons_self, ih fun c member => find c (List.mem_cons_of_mem _ member)⟩

/-- A step leaves the right versions for what is left to do. -/
theorem PassedOn.due_next (passed : PassedOn plan Finds) (placed : plan.PhisRenamed)
    {before after : Visiting plan} (step : before.next? = .ok (some after))
    (due : Due (Finds before.done) initial before.versions.stack before.pending)
    : Due (Finds after.done) initial after.versions.stack after.pending := by
  rcases next?_eq_some step with ⟨b, rest, block, pushed, top, renamed, rfl⟩
    | ⟨pushed, rest, top, rfl⟩
  · rw [top] at due
    obtain ⟨found, due⟩ := due
    refine Due.enter_all (fun c child => ?_) ?_
    · exact passed.below found renamed (FlowGraph.mem_children_domTree.mp child)
    · have restored : (fun var => (block.exit.stack var).drop (pushed.count var))
          = before.versions.stack :=
        funext (RenamePlan.extends_renameBlock placed renamed).stack_drop
      rw [Due, restored]
      exact due.mono fun _ _ => passed.later
  · rw [top] at due
    have popped : (pushed.foldl Versions.pop before.versions).stack
        = fun var => (before.versions.stack var).drop (pushed.count var) :=
      funext fun var => Versions.stack_foldl_pop pushed before.versions var
    rw [popped]
    exact due

/-- Whatever comes after a state has the right versions for what is left to do then, by induction on
the steps.
-/
theorem PassedOn.due_leads (passed : PassedOn plan Finds) (placed : plan.PhisRenamed)
    {first last : Visiting plan} (leads : first.Leads last)
    (due : Due (Finds first.done) initial first.versions.stack first.pending)
    : Due (Finds last.done) initial last.versions.stack last.pending := by
  induction leads with
  | refl => exact due
  | tail _ step ih => exact passed.due_next placed step ih

end Visiting
end ThreeAddress
