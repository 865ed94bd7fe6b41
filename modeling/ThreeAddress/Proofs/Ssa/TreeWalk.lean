import ThreeAddress.Proofs.Graph.DominatorTree
import ThreeAddress.Proofs.Ssa.Renaming

/-! The walk down the dominator tree: it enters every block below its start once, with the versions
at the end of the immediate dominator in scope, and leaves the stacks as it found them.
-/

namespace ThreeAddress.RenamePlan

variable {plan : RenamePlan}

/-- A finished walk over some blocks and all below them. It lists the blocks it entered, each in
front of those below it, and goes from the versions it finds to those it leaves.
-/
inductive Walked (plan : RenamePlan)
  : Versions → List plan.cfg.Block → List (plan.cfg.Block × RenamedBlock) → Versions → Prop
  | nil (versions : Versions) : Walked plan versions [] [] versions
  | cons {versions inside final : Versions} {b : plan.cfg.Block} {block : RenamedBlock}
    {pushed : List String} {rest : List plan.cfg.Block}
    {below others : List (plan.cfg.Block × RenamedBlock)}
    (renamed : plan.renameBlock versions b = .ok (block, pushed))
    (children : Walked plan block.exit (plan.cfg.domTree.children b) below inside)
    (siblings : Walked plan (pushed.foldl Versions.pop inside) rest others final)
    : Walked plan versions (b :: rest) ((b, block) :: (below ++ others)) final

/-- Renaming below some blocks is such a walk, if it is as deep as the tree can get. By induction on
the depth, and on the blocks on one level.
-/
theorem walked_of_foldlM {depth : Nat} {blocks : List plan.cfg.Block} {state final : Renaming plan}
    (deep : ∀ b ∈ blocks, plan.cfg.size < depth + plan.cfg.level b)
    (ok : blocks.foldlM (plan.renameBelow plan.cfg.domTree depth) state = .ok final)
    : ∃ entered, final.done = state.done ++ entered
        ∧ Walked plan state.versions blocks entered final.versions := by
  induction depth generalizing blocks state final with
  | zero =>
      match blocks with
      | [] =>
          obtain rfl := Except.ok.inj ok
          exact ⟨[], by simp, .nil _⟩
      | b :: _ =>
          have high := deep b List.mem_cons_self
          have low := FlowGraph.level_le b
          omega
  | succ depth ih =>
      induction blocks generalizing state with
      | nil =>
          obtain rfl := Except.ok.inj ok
          exact ⟨[], by simp, .nil _⟩
      | cons b rest others =>
          rw [List.foldlM_cons, renameBelow] at ok
          cases renamed : plan.renameBlock state.versions b with
          | error fault =>
              rw [renamed] at ok
              cases ok
          | ok result =>
              obtain ⟨block, pushed⟩ := result
              rw [renamed] at ok
              cases below : (plan.cfg.domTree.children b).foldlM
                  (plan.renameBelow plan.cfg.domTree depth)
                  { versions := block.exit, done := state.done ++ [(b, block)] } with
              | error fault =>
                  simp only [Except.bind, bind, below] at ok
                  cases ok
              | ok inside =>
                  have lower : ∀ c ∈ plan.cfg.domTree.children b,
                      plan.cfg.size < depth + plan.cfg.level c := by
                    intro c child
                    have higher := (FlowGraph.mem_children_domTree.mp child).1.level_lt
                    have high := deep b List.mem_cons_self
                    omega
                  obtain ⟨more, listed, children⟩ := ih lower below
                  simp only [Except.bind, bind, below] at ok
                  obtain ⟨later, rest, siblings⟩ :=
                    others (fun c member => deep c (List.mem_cons_of_mem _ member)) ok
                  refine ⟨(b, block) :: (more ++ later), ?_, .cons renamed children siblings⟩
                  rw [rest, listed]
                  simp

namespace Walked

variable {versions final : Versions} {blocks : List plan.cfg.Block}
  {entered : List (plan.cfg.Block × RenamedBlock)}

-----------------------------------------------------------------------------------------
-- Which blocks are entered
-----------------------------------------------------------------------------------------

/-- The blocks entered are those that the walk starts from dominate, by induction on the walk. -/
theorem mem_entered (walked : Walked plan versions blocks entered final)
    (reached : ∀ b ∈ blocks, plan.cfg.Reachable b) {c : plan.cfg.Block}
    : c ∈ entered.map Prod.fst ↔ ∃ b ∈ blocks, plan.cfg.PathDominates b c := by
  induction walked with
  | nil => simp
  | @cons _ _ _ b block _ rest below others _ _ _ children siblings =>
      have top := reached b List.mem_cons_self
      have ofChildren := children fun c child => (FlowGraph.mem_children_domTree.mp child).1.2.1
      have ofSiblings := siblings fun c member => reached c (List.mem_cons_of_mem _ member)
      simp only [List.map_cons, List.map_append, List.mem_cons, List.mem_append, ofChildren,
        ofSiblings, exists_eq_or_imp]
      rw [← or_assoc]
      apply or_congr_left
      constructor
      · intro found
        rcases found with rfl | ⟨child, member, dom⟩
        · exact .refl top
        · exact (FlowGraph.mem_children_domTree.mp member).1.2.trans dom
      · intro dom
        by_cases same : c = b
        · exact .inl same
        · have strict : plan.cfg.StrictlyPathDominates b c := ⟨Ne.symm same, dom⟩
          exact .inr strict.exists_child

/-- No block is entered twice, if none is below two of the blocks that the walk starts from. -/
theorem entered_nodup (walked : Walked plan versions blocks entered final)
    (reached : ∀ b ∈ blocks, plan.cfg.Reachable b) (unique : blocks.Nodup)
    (apart
      : ∀ b ∈ blocks, ∀ c ∈ blocks, ∀ x, plan.cfg.PathDominates b x → plan.cfg.PathDominates c x →
          b = c)
    : (entered.map Prod.fst).Nodup := by
  induction walked with
  | nil => simp
  | @cons _ _ _ b block _ rest below others _ children siblings ofChildren ofSiblings =>
      have immediate {c : plan.cfg.Block} (child : c ∈ plan.cfg.domTree.children b) :=
        FlowGraph.mem_children_domTree.mp child
      have reachedBelow : ∀ c ∈ plan.cfg.domTree.children b, plan.cfg.Reachable c :=
        fun c child => (immediate child).1.2.1
      have reachedRest : ∀ c ∈ rest, plan.cfg.Reachable c :=
        fun c member => reached c (List.mem_cons_of_mem _ member)
      obtain ⟨notAgain, uniqueRest⟩ := List.nodup_cons.mp unique
      have memBelow {c : plan.cfg.Block} := children.mem_entered reachedBelow (c := c)
      have memRest {c : plan.cfg.Block} := siblings.mem_entered reachedRest (c := c)
      have foreign {c x : plan.cfg.Block} (member : c ∈ rest) (dom : plan.cfg.PathDominates c x)
          : ¬ plan.cfg.PathDominates b x := by
        intro mine
        have same := apart b List.mem_cons_self c (List.mem_cons_of_mem _ member) x mine dom
        exact notAgain (same ▸ member)
      simp only [List.map_cons, List.map_append, List.nodup_cons, List.nodup_append,
        List.mem_append, not_or]
      refine ⟨⟨?_, ?_⟩, ?_, ?_, ?_⟩
      · intro again
        obtain ⟨child, member, dom⟩ := memBelow.mp again
        exact (immediate member).1.1 ((immediate member).1.2.antisymm dom)
      · intro again
        obtain ⟨c, member, dom⟩ := memRest.mp again
        exact foreign member dom (.refl (reached b List.mem_cons_self))
      · apply ofChildren reachedBelow (FlowGraph.children_domTree_nodup b)
        intro c first d second x ofFirst ofSecond
        exact FlowGraph.eq_of_children_dominate (immediate first) (immediate second) ofFirst
          ofSecond
      · apply ofSiblings reachedRest uniqueRest
        intro c first d second
        exact apart c (List.mem_cons_of_mem _ first) d (List.mem_cons_of_mem _ second)
      · intro x inBelow y inRest same
        subst same
        obtain ⟨child, member, dom⟩ := memBelow.mp inBelow
        obtain ⟨c, other, mine⟩ := memRest.mp inRest
        exact foreign other mine ((immediate member).1.2.trans dom)

-----------------------------------------------------------------------------------------
-- Which versions are in scope
-----------------------------------------------------------------------------------------

variable (placed : plan.PhisRenamed)

include placed

/-- A walk leaves the stacks as it found them: the versions pushed in a block are popped when all
blocks below it are done. By induction on the walk.
-/
theorem stack_eq (walked : Walked plan versions blocks entered final)
    : final.stack = versions.stack := by
  induction walked with
  | nil => rfl
  | cons renamed _ _ ofChildren ofSiblings =>
      have block := extends_renameBlock placed renamed
      funext var
      rw [ofSiblings, Versions.stack_foldl_pop, ofChildren, block.stack_drop]

/-- Counters only grow in a walk, by induction on it. -/
theorem count_le (walked : Walked plan versions blocks entered final) (var : String)
    : versions.count var ≤ final.count var := by
  induction walked with
  | nil => exact Nat.le_refl _
  | cons renamed _ _ ofChildren ofSiblings =>
      have block := (extends_renameBlock placed renamed).count_le var
      rw [Versions.count_foldl_pop] at ofSiblings
      omega

theorem coherent (walked : Walked plan versions blocks entered final) (start : versions.Coherent)
    : final.Coherent := by
  intro var name member
  rw [walked.stack_eq placed] at member
  obtain ⟨number, created, named⟩ := start var name member
  exact ⟨number, Nat.lt_of_lt_of_le created (walked.count_le placed var), named⟩

/-- An entered block is renamed with the versions that it finds, and these have been created. By
induction on the walk.
-/
theorem renamed_of_mem (walked : Walked plan versions blocks entered final)
    (start : versions.Coherent) {c : plan.cfg.Block} {block : RenamedBlock}
    (member : (c, block) ∈ entered)
    : block.entry.Coherent ∧ ∃ pushed, plan.renameBlock block.entry c = .ok (block, pushed) := by
  induction walked with
  | nil => simp at member
  | @cons versions inside _ b top pushed _ _ _ renamed children siblings ofChildren ofSiblings =>
      have extended := extends_renameBlock placed renamed
      have inBelow := children.coherent placed (extended.coherent start)
      have after : (pushed.foldl Versions.pop inside).Coherent := by
        intro var name member
        rw [Versions.stack_foldl_pop] at member
        rw [Versions.count_foldl_pop]
        exact inBelow var name (List.mem_of_mem_drop member)
      rcases List.mem_cons.mp member with same | member
      · obtain ⟨rfl, rfl⟩ := Prod.mk.inj same
        obtain ⟨-, -, -, -, -, top⟩ := renameBlock_eq_ok renamed
        rw [top]
        exact ⟨start, pushed, renamed⟩
      · rcases List.mem_append.mp member with member | member
        · exact ofChildren (extended.coherent start) member
        · exact ofSiblings after member

/-- An entered block finds on the stacks what the walk found, if the walk starts from it, and else
what its immediate dominator leaves there. By induction on the walk.
-/
theorem entry_stack (walked : Walked plan versions blocks entered final) {c : plan.cfg.Block}
    {block : RenamedBlock} (member : (c, block) ∈ entered)
    : (c ∈ blocks ∧ block.entry.stack = versions.stack)
      ∨ ∃ d above, (d, above) ∈ entered ∧ plan.cfg.ImmediatelyDominates d c
        ∧ block.entry.stack = above.exit.stack := by
  induction walked with
  | nil => simp at member
  | @cons versions inside _ b top pushed _ _ _ renamed children siblings ofChildren ofSiblings =>
      rcases List.mem_cons.mp member with same | member
      · obtain ⟨rfl, rfl⟩ := Prod.mk.inj same
        obtain ⟨-, -, -, -, -, top⟩ := renameBlock_eq_ok renamed
        exact .inl ⟨List.mem_cons_self, by rw [top]⟩
      · rcases List.mem_append.mp member with member | member
        · apply Or.inr
          rcases ofChildren member with ⟨child, stack⟩ | ⟨d, above, listed, dom, stack⟩
          · exact ⟨b, top, List.mem_cons_self, FlowGraph.mem_children_domTree.mp child, stack⟩
          · exact ⟨d, above, by simp [listed], dom, stack⟩
        · rcases ofSiblings member with ⟨sibling, stack⟩ | ⟨d, above, listed, dom, stack⟩
          · refine .inl ⟨List.mem_cons_of_mem _ sibling, stack.trans ?_⟩
            have restored := (extends_renameBlock placed renamed).stack_drop
            funext var
            rw [Versions.stack_foldl_pop, children.stack_eq placed, restored]
          · exact .inr ⟨d, above, by simp [listed], dom, stack⟩

end Walked

end ThreeAddress.RenamePlan
