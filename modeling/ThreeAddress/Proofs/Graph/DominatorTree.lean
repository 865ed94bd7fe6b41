import ThreeAddress.Proofs.Graph.DominatorSets

/-! The dominator tree is dominance: every reachable block but the entry has an immediate dominator,
and the way up from a block lists exactly its dominators.
-/

namespace ThreeAddress

/-- A block is above itself in the tree, and above the children of every block that it is above. -/
inductive DomTree.Above {g : FlowGraph} (tree : DomTree g) (a : g.Block) : g.Block → Prop
  | self : tree.Above a a
  | child {b c : g.Block} (above : tree.Above a b) (listed : c ∈ tree.children b) : tree.Above a c

namespace FlowGraph

variable {g : FlowGraph}

/-- The first block strictly dominates the second, and all strict dominators of the second dominate
the first.
-/
def ImmediatelyDominates (g : FlowGraph) (d b : g.Block) : Prop :=
  g.StrictlyPathDominates d b ∧ ∀ a, g.StrictlyPathDominates a b → g.PathDominates a d

/-- The tree knows the reachable blocks. -/
@[simp] theorem isReachable_domTree (b : g.Block)
    : g.domTree.isReachable b = true ↔ g.Reachable b :=
  contains_reachable b

/-- The tree knows dominance. -/
@[simp] theorem dominates_domTree (a b : g.Block)
    : g.domTree.dominates a b = true ↔ g.PathDominates a b := by
  rw [DomTree.dominates, Bool.and_eq_true, isReachable_domTree]
  exact (and_congr_right fun _ => contains_dominatorSets a b).trans
    (and_iff_right_of_imp fun dom => dom.1)

/-- Computing dominators ends, with the sets that some number of sweeps gives and that another sweep
does not change, and the tree answers that one block dominates another exactly when the other is
reachable and every walk from the entry to it passes through the first.
-/
theorem dominates_iff_every_walk_passes (g : FlowGraph)
    : (∃ rounds ≤ g.size * g.size + 1,
        g.domTree.doms = (g.sweep g.reachable g.reversePostOrder.tail)^[rounds] g.initialDoms
          ∧ g.sweep g.reachable g.reversePostOrder.tail g.domTree.doms = g.domTree.doms)
      ∧ ∀ m n : g.Block,
          g.domTree.dominates m n = true
            ↔ g.Reachable n ∧ ∀ left, g.Walk g.entry left n → m ∈ left ∨ m = n := by
  obtain ⟨rounds, bounded, reached⟩ := exists_sweepUntilStable_eq_iterate g.reversePostOrder.tail
    (g.size * g.size + 1) g.initialDoms
  exact ⟨⟨rounds, bounded, reached, g.dominatorSets_stable.2⟩, dominates_domTree⟩

/-- The tree knows strict dominance. -/
@[simp] theorem strictlyDominates_domTree (a b : g.Block)
    : g.domTree.strictlyDominates a b = true ↔ g.StrictlyPathDominates a b := by
  rw [DomTree.strictlyDominates, Bool.and_eq_true, dominates_domTree, bne_iff_ne,
    StrictlyPathDominates]

-----------------------------------------------------------------------------------------
-- Immediate dominators
-----------------------------------------------------------------------------------------

/-- No block has two immediate dominators. -/
theorem ImmediatelyDominates.unique {c d b : g.Block} (first : g.ImmediatelyDominates c b)
    (second : g.ImmediatelyDominates d b)
    : c = d :=
  (second.2 c first.1).antisymm (first.2 d second.1)

/-- Among blocks that dominate one block, one is dominated by all, by induction on their list. -/
theorem exists_closest {b : g.Block} {candidates : List g.Block} (some : candidates ≠ [])
    (dom : ∀ a ∈ candidates, g.PathDominates a b)
    : ∃ d ∈ candidates, ∀ a ∈ candidates, g.PathDominates a d := by
  induction candidates with
  | nil => exact absurd rfl some
  | cons first rest ih =>
      have self := PathDominates.refl (dom first (by simp)).reachable
      by_cases last : rest = []
      · subst last
        exact ⟨first, by simp, by simpa using self⟩
      · obtain ⟨d, member, closest⟩ := ih last fun a member => dom a (by simp [member])
        rcases (dom first (by simp)).total (dom d (by simp [member])) with above | below
        · refine ⟨d, by simp [member], fun a listed => ?_⟩
          rcases List.mem_cons.mp listed with rfl | listed
          · exact above
          · exact closest a listed
        · refine ⟨first, by simp, fun a listed => ?_⟩
          rcases List.mem_cons.mp listed with rfl | listed
          · exact self
          · exact (closest a listed).trans below

/-- The members of the set in which the immediate dominator is looked for. -/
theorem contains_strictSet (b a : g.Block)
    : ((g.dominatorSets.get b).erase b).contains a = true ↔ g.StrictlyPathDominates a b := by
  simp only [BlockSet.contains_erase, Bool.and_eq_true, Bool.not_eq_true', decide_eq_false_iff_not,
    contains_dominatorSets, StrictlyPathDominates, Fin.ext_iff, ne_eq, eq_comm (a := b.val)]

/-- A block is chosen as the closest one exactly when it is dominated by all strict dominators. -/
theorem isSubset_strictSet (b d : g.Block)
    : ((g.dominatorSets.get b).erase b).isSubset (g.dominatorSets.get d) = true
      ↔ ∀ a, g.StrictlyPathDominates a b → g.PathDominates a d := by
  rw [BlockSet.isSubset_iff]
  constructor
  · intro subset a strict
    exact (contains_dominatorSets a d).mp (subset a ((contains_strictSet b a).mpr strict))
  · intro every n member
    have lt : n < g.size := by
      simp only [BlockSet.contains_erase, Bool.and_eq_true] at member
      exact g.dominatorSets_fixed.1.bounded b n member.2
    exact (contains_dominatorSets ⟨n, lt⟩ d).mpr
      (every ⟨n, lt⟩ ((contains_strictSet b ⟨n, lt⟩).mp member))

/-- The immediate dominator in the tree is the one that walks define. -/
theorem idom?_domTree_eq_some {b d : g.Block}
    : g.domTree.idom? b = some d ↔ g.ImmediatelyDominates d b := by
  have chosen : g.domTree.idom? b = g.closestStrictDominator g.dominatorSets b :=
    Vector.getElem_ofFn b.isLt
  have strict (d : g.Block)
      : d ∈ g.members ((g.dominatorSets.get b).erase b) ↔ g.StrictlyPathDominates d b := by
    rw [mem_members, contains_strictSet]
  have sound {d : g.Block} (found : g.domTree.idom? b = some d) : g.ImmediatelyDominates d b := by
    rw [chosen, closestStrictDominator] at found
    have subset := List.find?_some (p := fun c => BlockSet.isSubset _ (g.dominatorSets.get c)) found
    exact ⟨(strict d).mp (List.mem_of_find?_eq_some found), (isSubset_strictSet b d).mp subset⟩
  refine ⟨sound, fun immediate => ?_⟩
  cases found : g.domTree.idom? b with
  | some c => rw [(sound found).unique immediate]
  | none =>
      rw [chosen, closestStrictDominator, List.find?_eq_none] at found
      exact absurd ((isSubset_strictSet b d).mpr immediate.2)
        (found d ((strict d).mpr immediate.1))

/-- Every reachable block other than the entry has an immediate dominator. -/
theorem Reachable.exists_idom {b : g.Block} (reach : g.Reachable b) (other : b ≠ g.entry)
    : ∃ d, g.ImmediatelyDominates d b := by
  have strict (a : g.Block)
      : a ∈ g.members ((g.dominatorSets.get b).erase b) ↔ g.StrictlyPathDominates a b := by
    rw [mem_members, contains_strictSet]
  have entryStrict : g.StrictlyPathDominates g.entry b := ⟨Ne.symm other, .entry reach⟩
  obtain ⟨d, member, closest⟩ := exists_closest (b := b)
    (List.ne_nil_of_mem ((strict g.entry).mpr entryStrict)) fun a member => ((strict a).mp member).2
  exact ⟨d, (strict d).mp member, fun a strictly => closest a ((strict a).mpr strictly)⟩

/-- The entry has no immediate dominator. -/
theorem idom?_entry (g : FlowGraph) : g.domTree.idom? g.entry = none := by
  cases found : g.domTree.idom? g.entry with
  | none => rfl
  | some d =>
      have strict := (idom?_domTree_eq_some.mp found).1
      exact absurd strict.2.eq_entry strict.1

/-- A block that dominates another is that block or dominates its immediate dominator. -/
theorem PathDominates.cases_idom {a b d : g.Block} (dom : g.PathDominates a b)
    (immediate : g.ImmediatelyDominates d b)
    : a = b ∨ g.PathDominates a d := by
  by_cases same : a = b
  · exact .inl same
  · exact .inr (immediate.2 a ⟨same, dom⟩)

-----------------------------------------------------------------------------------------
-- Levels: the number of dominators of a block measures its place in the tree
-----------------------------------------------------------------------------------------

/-- How many dominators a block has. -/
def level (g : FlowGraph) (b : g.Block) : Nat :=
  g.blocks.countP fun a : g.Block => (g.dominatorSets.get b).contains a

/-- No block has more dominators than there are blocks. -/
theorem level_le (b : g.Block) : g.level b ≤ g.size :=
  Nat.le_trans List.countP_le_length (by simp [blocks])

/-- A reachable block has a dominator. -/
theorem level_pos {b : g.Block} (reach : g.Reachable b) : 0 < g.level b := by
  rw [level, List.countP_pos_iff]
  exact ⟨b, g.mem_blocks b, (contains_dominatorSets b b).mpr (.refl reach)⟩

/-- The level goes up with strict dominance. -/
theorem StrictlyPathDominates.level_lt {a b : g.Block} (strict : g.StrictlyPathDominates a b)
    : g.level a < g.level b := by
  refine countP_lt_of_imp (x := b) ?_ ?_ ?_ (g.mem_blocks b)
  · intro c
    simp only [contains_dominatorSets]
    exact fun dom => dom.trans strict.2
  · rw [Bool.eq_false_iff, Ne, contains_dominatorSets]
    exact fun dom => strict.1 (strict.2.antisymm dom)
  · rw [contains_dominatorSets]
    exact .refl strict.2.1

/-- Only the entry is on the first level. -/
theorem level_entry (g : FlowGraph) : g.level g.entry = 1 := by
  have only : (fun a : g.Block => (g.dominatorSets.get g.entry).contains a)
      = fun a : g.Block => a == g.entry := by
    funext a
    rw [Bool.eq_iff_iff, contains_dominatorSets, beq_iff_eq]
    exact ⟨PathDominates.eq_entry, fun same => same.symm ▸ .refl g.reachable_entry⟩
  have once : g.blocks.count g.entry = 1 :=
    List.count_eq_one_of_mem (List.nodup_finRange _) (g.mem_blocks g.entry)
  rw [level, only]
  exact once

-----------------------------------------------------------------------------------------
-- Ways up and children
-----------------------------------------------------------------------------------------

/-- A way up that is given as many steps as the block has dominators lists these, by induction on
the steps.
-/
theorem mem_chain {fuel : Nat} {a b : g.Block} (reach : g.Reachable b)
    (enough : g.level b ≤ fuel + 1)
    : a ∈ g.domTree.chain fuel b ↔ g.PathDominates a b := by
  induction fuel generalizing b with
  | zero =>
      rw [DomTree.chain, List.mem_singleton]
      refine ⟨fun same => same.symm ▸ .refl reach, fun dom => ?_⟩
      apply Classical.byContradiction
      intro other
      have lower := (show g.StrictlyPathDominates a b from ⟨other, dom⟩).level_lt
      have pos := level_pos dom.reachable
      omega
  | succ fuel ih =>
      rw [DomTree.chain, List.mem_cons]
      cases found : g.domTree.idom? b with
      | none =>
          simp only [List.not_mem_nil, or_false]
          refine ⟨fun same => same.symm ▸ .refl reach, fun dom => ?_⟩
          by_cases isEntry : b = g.entry
          · subst isEntry
            exact dom.eq_entry
          · obtain ⟨d, immediate⟩ := reach.exists_idom isEntry
            rw [idom?_domTree_eq_some.mpr immediate] at found
            simp at found
      | some d =>
          have immediate := idom?_domTree_eq_some.mp found
          have lower := immediate.1.level_lt
          simp only [ih immediate.1.2.reachable (by omega)]
          constructor
          · intro cases
            rcases cases with rfl | above
            · exact .refl reach
            · exact above.trans immediate.1.2
          · exact fun dom => dom.cases_idom immediate

/-- The children of a block are the blocks that it immediately dominates. -/
@[simp] theorem mem_children_domTree {b c : g.Block}
    : c ∈ g.domTree.children b ↔ g.ImmediatelyDominates b c := by
  simp [DomTree.children, idom?_domTree_eq_some]

/-- A block is listed as a child once. -/
theorem children_domTree_nodup (b : g.Block) : (g.domTree.children b).Nodup :=
  (List.nodup_finRange _).filter _

/-- A block that a block strictly dominates is below one of its children. By induction on the level
of the lower block, going up the tree from it.
-/
theorem StrictlyPathDominates.exists_child {b c : g.Block} (strict : g.StrictlyPathDominates b c)
    : ∃ child ∈ g.domTree.children b, g.PathDominates child c := by
  induction bound : g.level c using Nat.strongRecOn generalizing c with
  | ind n ih =>
      have other : c ≠ g.entry := fun same => strict.1 ((same ▸ strict.2).eq_entry.trans same.symm)
      obtain ⟨d, immediate⟩ := strict.2.1.exists_idom other
      by_cases same : b = d
      · exact ⟨c, mem_children_domTree.mpr (same ▸ immediate), .refl strict.2.1⟩
      · have above : g.StrictlyPathDominates b d := ⟨same, immediate.2 b strict⟩
        obtain ⟨child, member, dom⟩ := ih (g.level d) (bound ▸ immediate.1.level_lt) above rfl
        exact ⟨child, member, dom.trans immediate.1.2⟩

/-- No block is below two children of a block: one of them would dominate the other, and so their
common parent.
-/
theorem eq_of_children_dominate {b c d e : g.Block} (first : g.ImmediatelyDominates b c)
    (second : g.ImmediatelyDominates b d) (ofFirst : g.PathDominates c e)
    (ofSecond : g.PathDominates d e)
    : c = d := by
  have apart {c d : g.Block} (first : g.ImmediatelyDominates b c)
      (second : g.ImmediatelyDominates b d) (dom : g.PathDominates c d)
      : c = d := by
    apply Classical.byContradiction
    intro other
    have above := second.2 c ⟨other, dom⟩
    exact first.1.1 (first.1.2.antisymm above)
  rcases ofFirst.total ofSecond with dom | dom
  · exact apart first second dom
  · exact (apart second first dom).symm

/-- A reachable block is dominated by a block if it is this one, or else is dominated by exactly one
of its children.
-/
theorem countP_children_add {b c : g.Block} (above : g.Reachable b)
    (reached : g.Reachable c)
    : (if b = c then 1 else 0) + (g.domTree.children b).countP (g.domTree.dominates · c)
      = if g.domTree.dominates b c then 1 else 0 := by
  have child {x : g.Block} (member : x ∈ g.domTree.children b) := mem_children_domTree.mp member
  by_cases strict : g.StrictlyPathDominates b c
  · obtain ⟨x, member, dom⟩ := strict.exists_child
    have only : (g.domTree.children b).countP (g.domTree.dominates · c)
        = (g.domTree.children b).count x := by
      rw [List.count]
      apply List.countP_congr
      intro y listed
      rw [dominates_domTree, beq_iff_eq]
      exact ⟨fun ofY => eq_of_children_dominate (child listed) (child member) ofY dom,
        fun same => same ▸ dom⟩
    rw [if_neg strict.1, if_pos (dominates_domTree b c |>.mpr strict.2), only,
      List.count_eq_one_of_mem (children_domTree_nodup b) member]
  · have none : (g.domTree.children b).countP (g.domTree.dominates · c) = 0 := by
      rw [List.countP_eq_zero]
      intro x member dom
      exact strict ((child member).1.trans_left ((dominates_domTree x c).mp dom))
    rw [none]
    by_cases same : b = c
    · subst same
      rw [if_pos rfl, if_pos ((dominates_domTree b b).mpr (.refl above))]
    · rw [if_neg same, if_neg fun dom => strict ⟨same, (dominates_domTree b c).mp dom⟩]

-----------------------------------------------------------------------------------------
-- The tree as a whole
-----------------------------------------------------------------------------------------

/-- What is above a reachable block in the tree dominates it, by induction on the way down. -/
theorem PathDominates.of_above {a b : g.Block} (reach : g.Reachable a)
    (above : g.domTree.Above a b)
    : g.PathDominates a b := by
  induction above with
  | self => exact .refl reach
  | child _ listed ih => exact ih.trans (mem_children_domTree.mp listed).1.2

/-- The dominators of a block are above it in the tree. By induction on the level of the block,
going up the tree from it.
-/
theorem PathDominates.above {a b : g.Block} (dom : g.PathDominates a b)
    : g.domTree.Above a b := by
  induction bound : g.level b using Nat.strongRecOn generalizing b with
  | ind n ih =>
      by_cases same : a = b
      · exact same ▸ .self
      · have other : b ≠ g.entry := fun top => same ((top ▸ dom).eq_entry.trans top.symm)
        obtain ⟨d, immediate⟩ := dom.1.exists_idom other
        have higher := ih (g.level d) (bound ▸ immediate.1.level_lt) (immediate.2 a ⟨same, dom⟩) rfl
        exact .child higher (mem_children_domTree.mpr immediate)

/-- A block with an immediate dominator is listed as a child once: by that block, which lists it
once, and by no block in front of or behind that one.
-/
theorem ImmediatelyDominates.count_children {b d : g.Block}
    (immediate : g.ImmediatelyDominates d b)
    : (g.blocks.flatMap g.domTree.children).count b = 1 := by
  have once : (g.domTree.children d).count b = 1 :=
    List.count_eq_one_of_mem (children_domTree_nodup d) (mem_children_domTree.mpr immediate)
  have absent {others : List g.Block} (apart : d ∉ others)
      : (others.flatMap g.domTree.children).count b = 0 := by
    refine List.count_eq_zero_of_not_mem fun listed => ?_
    obtain ⟨c, member, child⟩ := List.mem_flatMap.mp listed
    exact apart ((mem_children_domTree.mp child).unique immediate ▸ member)
  obtain ⟨before, after, split⟩ := List.append_of_mem (g.mem_blocks d)
  have unique : (before ++ d :: after).Nodup := split ▸ List.nodup_finRange g.size
  have apartBefore : d ∉ before := fun member =>
    List.disjoint_of_nodup_append unique member List.mem_cons_self
  have apartAfter : d ∉ after := (List.nodup_cons.mp unique.of_append_right).1
  rw [split, List.flatMap_append, List.flatMap_cons, List.count_append, List.count_append, once,
    absent apartBefore, absent apartAfter]

/-- The tree is dominance. Every reachable block but the entry has one immediate dominator and is
listed once among the children of all blocks, by that block; the entry and blocks that are not
reachable have none; lists of children are in layout order; and going down from a reachable block
leads to the blocks that it dominates.
-/
theorem domTree_represents_dominance (g : FlowGraph)
    : (∀ b, g.Reachable b → b ≠ g.entry →
        (∃ d, g.domTree.idom? b = some d ∧ g.ImmediatelyDominates d b
          ∧ ∀ c, g.ImmediatelyDominates c b → c = d)
        ∧ (g.blocks.flatMap g.domTree.children).count b = 1)
      ∧ (∀ b, b = g.entry ∨ ¬ g.Reachable b → g.domTree.idom? b = none)
      ∧ (∀ b d, b ∈ g.domTree.children d ↔ g.domTree.idom? b = some d)
      ∧ (∀ b, (g.domTree.children b).Pairwise (· < ·))
      ∧ ∀ m n, g.Reachable m → g.Reachable n → (g.domTree.Above m n ↔ g.PathDominates m n) := by
  refine ⟨fun b reach other => ?_, fun b without => ?_, fun b d => ?_, fun b => ?_,
    fun m n reach _ => ?_⟩
  · obtain ⟨d, immediate⟩ := reach.exists_idom other
    exact ⟨⟨d, idom?_domTree_eq_some.mpr immediate, immediate, fun c also => also.unique immediate⟩,
      immediate.count_children⟩
  · rcases without with rfl | outside
    · exact g.idom?_entry
    · rw [Option.eq_none_iff_forall_ne_some]
      exact fun d found => outside (idom?_domTree_eq_some.mp found).1.2.1
  · rw [mem_children_domTree, idom?_domTree_eq_some]
  · exact (List.pairwise_lt_finRange g.size).filter _
  · exact ⟨PathDominates.of_above reach, PathDominates.above⟩

/-- Two blocks that lead to each other and are both entered from the first one, a block behind them
that leads to itself, and a block that nothing leads to.
-/
abbrev irreducibleLoop : FlowGraph where
  size := 5
  size_pos := by decide
  edges := #v[[1, 2], [2], [1, 3], [3], [3]]

/-- Neither of the two blocks is above the other, and the block behind them is below the one that
leads to it.
-/
theorem domTree_represents_dominance_irreducibleLoop
    : irreducibleLoop.domTree.idom? 1 = some 0 ∧ irreducibleLoop.domTree.idom? 3 = some 2
      ∧ irreducibleLoop.domTree.idom? 4 = none
      ∧ irreducibleLoop.domTree.Above 0 3 ∧ ¬ irreducibleLoop.domTree.Above 1 3
      ∧ (irreducibleLoop.blocks.flatMap irreducibleLoop.domTree.children).count 3 = 1 := by
  have known (a b : irreducibleLoop.Block) (answer : Bool)
      (computed : irreducibleLoop.domTree.dominates a b = answer)
      : irreducibleLoop.PathDominates a b ↔ answer = true := by
    rw [← dominates_domTree, computed]
  have reach (b : irreducibleLoop.Block) (computed : irreducibleLoop.domTree.isReachable b = true)
      : irreducibleLoop.Reachable b :=
    (isReachable_domTree b).mp computed
  obtain ⟨inner, outer, -, -, below⟩ := domTree_represents_dominance irreducibleLoop
  have three := reach 3 (by cbv)
  refine ⟨by cbv, by cbv, ?_, ?_, ?_, (inner 3 three (by decide)).2⟩
  · refine outer 4 (.inr fun reached => ?_)
    have no : irreducibleLoop.domTree.isReachable 4 = false := by cbv
    rw [← isReachable_domTree, no] at reached
    cases reached
  · exact (below 0 3 (reach 0 (by cbv)) three).mpr ((known 0 3 true (by cbv)).mpr rfl)
  · rw [below 1 3 (reach 1 (by cbv)) three, known 1 3 false (by cbv)]
    exact Bool.false_ne_true

end FlowGraph

end ThreeAddress
