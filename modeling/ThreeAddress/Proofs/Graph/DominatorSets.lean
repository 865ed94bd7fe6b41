import Mathlib.Logic.Function.Iterate
import ThreeAddress.Graph.Dominators
import ThreeAddress.Proofs.Graph.Traversal

/-! The iteration on dominator sets ends in a fixed point, and the fixed point is dominance as walks
define it. The sets always contain the dominators and only shrink; at the end they contain nothing
else.
-/

namespace ThreeAddress.FlowGraph

variable {g : FlowGraph}

/-- A block is in an intersection over a list exactly when it is in every set that is met. -/
theorem contains_foldl_inter (doms : BlockTable g) (set : BlockSet) (preds : List g.Block)
    (a : BlockId)
    : (preds.foldl (fun set p => set.inter (doms.get p)) set).contains a = true
      ↔ set.contains a = true ∧ ∀ p ∈ preds, (doms.get p).contains a = true := by
  induction preds generalizing set with
  | nil => simp
  | cons p preds ih => simp [ih, and_assoc]

/-- A block is in the intersection over the reachable predecessors exactly when there is one and
the sets of all of them have it.
-/
theorem contains_meetOverPreds (doms : BlockTable g) (b : g.Block) (a : BlockId)
    : (g.meetOverPreds g.reachable doms b).contains a = true
      ↔ (∃ p, g.Reachable p ∧ b ∈ g.succs p)
        ∧ ∀ p, g.Reachable p → b ∈ g.succs p → (doms.get p).contains a = true := by
  have listed (p : g.Block)
      : p ∈ (g.preds b).filter (fun p : g.Block => g.reachable.contains p)
        ↔ g.Reachable p ∧ b ∈ g.succs p := by
    simp [and_comm]
  rw [meetOverPreds]
  split
  · next none =>
      simp only [none, List.not_mem_nil, false_iff] at listed
      simp only [BlockSet.contains_empty, Bool.false_eq_true, false_iff, not_and]
      intro passed
      obtain ⟨p, found⟩ := passed
      exact absurd found (listed p)
  · next first rest some =>
      simp only [some, List.mem_cons] at listed
      rw [contains_foldl_inter]
      constructor
      · intro both
        obtain ⟨head, tail⟩ := both
        refine ⟨⟨first, (listed first).mp (.inl rfl)⟩, fun p reach edge => ?_⟩
        rcases (listed p).mpr ⟨reach, edge⟩ with rfl | member
        · exact head
        · exact tail p member
      · intro all
        obtain ⟨-, every⟩ := all
        have every (p : g.Block) (member : p = first ∨ p ∈ rest)
            : (doms.get p).contains a = true :=
          every p ((listed p).mp member).1 ((listed p).mp member).2
        exact ⟨every first (.inl rfl), fun p member => every p (.inr member)⟩

/-- The set that the equation for a block gives. -/
def refined (g : FlowGraph) (doms : BlockTable g) (b : g.Block) : BlockSet :=
  (g.meetOverPreds g.reachable doms b).insert b

/-- Refining one block replaces its set and keeps all others. -/
theorem get_refineAt (doms : BlockTable g) (b c : g.Block)
    : (g.refineAt g.reachable doms b).get c = if b = c then g.refined doms b else doms.get c := by
  rw [refineAt, get_updateAt, refined]

/-- Smaller sets give smaller sets. -/
theorem contains_refined_mono {doms next : BlockTable g}
    (below
      : ∀ (c : g.Block) a, (next.get c).contains a = true → (doms.get c).contains a = true)
    (b : g.Block) (a : BlockId) (member : (g.refined next b).contains a = true)
    : (g.refined doms b).contains a = true := by
  simp only [refined, BlockSet.contains_insert, Bool.or_eq_true, contains_meetOverPreds]
    at member ⊢
  rcases member with same | ⟨some, every⟩
  · exact .inl same
  · exact .inr ⟨some, fun p reach edge => below p a (every p reach edge)⟩

/-- What holds of the sets all through the iteration: only blocks are members, the entry has its
final set and unreachable blocks have none, the equations can only make the other sets smaller,
and no dominator is missing.
-/
structure Approximates (g : FlowGraph) (doms : BlockTable g) : Prop where
  bounded : ∀ (b : g.Block) a, (doms.get b).contains a = true → a < g.size
  entry : doms.get g.entry = BlockSet.empty.insert g.entry
  unreachable : ∀ b, ¬ g.Reachable b → doms.get b = .empty
  shrinks
    : ∀ b, g.Reachable b → b ≠ g.entry
        → ∀ a, (g.refined doms b).contains a = true → (doms.get b).contains a = true
  complete : ∀ a b : g.Block, g.PathDominates a b → (doms.get b).contains a = true

/-- Reachable blocks other than the entry start with all reachable blocks. -/
theorem get_initialDoms (b : g.Block)
    : g.initialDoms.get b
      = if b = g.entry then BlockSet.empty.insert b
        else if g.reachable.contains b then g.reachable else .empty := by
  exact Vector.getElem_ofFn b.isLt

/-- A number in the set of reachable blocks is a block. -/
theorem lt_size_of_contains_reachable {a : BlockId} (member : g.reachable.contains a = true)
    : a < g.size := by
  rw [reachable, setOf, BlockSet.contains_ofList, List.mem_map] at member
  obtain ⟨b, -, rfl⟩ := member
  exact b.isLt

/-- The iteration starts from an approximation. -/
theorem approximates_initialDoms (g : FlowGraph) : g.Approximates g.initialDoms where
  bounded := by
    intro b a member
    rw [get_initialDoms] at member
    split at member
    · simp only [BlockSet.contains_insert, BlockSet.contains_empty, Bool.or_false,
        decide_eq_true_eq] at member
      exact member ▸ b.isLt
    · split at member
      · exact lt_size_of_contains_reachable member
      · simp at member
  entry := by rw [get_initialDoms, if_pos rfl]
  unreachable := by
    intro b unreachable
    have other : b ≠ g.entry := fun same => unreachable (same ▸ g.reachable_entry)
    rw [get_initialDoms, if_neg other, if_neg (by simpa using unreachable)]
  shrinks := by
    intro b reach other a member
    rw [get_initialDoms, if_neg other, if_pos (by simpa using reach)]
    simp only [refined, BlockSet.contains_insert, Bool.or_eq_true, decide_eq_true_eq,
      contains_meetOverPreds] at member
    rcases member with rfl | ⟨⟨p, reachP, edge⟩, every⟩
    · simpa using reach
    · have found := every p reachP edge
      rw [get_initialDoms] at found
      split at found
      · next isEntry =>
          simp only [BlockSet.contains_insert, BlockSet.contains_empty, Bool.or_false,
            decide_eq_true_eq] at found
          simpa [← found] using reachP
      · rwa [if_pos (by simpa using reachP)] at found
  complete := by
    intro a b dom
    rw [get_initialDoms]
    split
    · next same =>
        subst same
        simp [dom.eq_entry]
    · simpa [dom.1] using dom.reachable

/-- Refining a reachable block other than the entry keeps an approximation. -/
theorem Approximates.refineAt {doms : BlockTable g} (approx : g.Approximates doms) {b : g.Block}
    (reach : g.Reachable b) (other : b ≠ g.entry)
    : g.Approximates (g.refineAt g.reachable doms b) := by
  have below (c : g.Block) (a : BlockId)
      (member : ((g.refineAt g.reachable doms b).get c).contains a = true)
      : (doms.get c).contains a = true := by
    rw [get_refineAt] at member
    split at member
    · next same => exact same ▸ approx.shrinks b reach other a member
    · exact member
  refine {
    bounded := fun c a member => approx.bounded c a (below c a member)
    entry := ?_
    unreachable := ?_
    shrinks := ?_
    complete := ?_
  }
  · rw [get_refineAt, if_neg other, approx.entry]
  · intro c unreachable
    have differs : b ≠ c := fun same => unreachable (same ▸ reach)
    rw [get_refineAt, if_neg differs, approx.unreachable c unreachable]
  · intro c reachC otherC a member
    have smaller := contains_refined_mono below c a member
    rw [get_refineAt]
    split
    · next same => exact same ▸ smaller
    · exact approx.shrinks c reachC otherC a smaller
  · intro a c dom
    rw [get_refineAt]
    split
    · next same =>
        subst same
        simp only [refined, BlockSet.contains_insert, Bool.or_eq_true, decide_eq_true_eq,
          contains_meetOverPreds]
        by_cases self : b = a
        · exact .inl (congrArg Fin.val self)
        · obtain ⟨p, reachP, edge, -⟩ := reach.exists_pred other
          refine .inr ⟨⟨p, reachP, edge⟩, fun p reachP edge => ?_⟩
          exact approx.complete a p (dom.of_succ (Ne.symm self) reachP edge)
    · exact approx.complete a c dom

/-- Whether a pair of blocks is in a table: the second is a member of the set of the first. -/
def related (doms : BlockTable g) (pair : g.Block × g.Block) : Bool :=
  (doms.get pair.1).contains pair.2

/-- How many pairs of blocks are in a table. -/
def weight (doms : BlockTable g) : Nat :=
  (g.blocks.flatMap fun b => g.blocks.map fun a => (b, a)).countP (related doms)

/-- No table has more pairs than there are. -/
theorem weight_le (doms : BlockTable g) : g.weight doms ≤ g.size * g.size := by
  refine Nat.le_trans List.countP_le_length (Nat.le_of_eq ?_)
  simp [List.length_flatMap, blocks]

/-- A table with smaller sets, not all the same, has fewer pairs. -/
theorem weight_lt {doms next : BlockTable g} (approx : g.Approximates doms)
    (below
      : ∀ (c : g.Block) a, (next.get c).contains a = true → (doms.get c).contains a = true)
    (changed : next ≠ doms)
    : g.weight next < g.weight doms := by
  obtain ⟨c, a, gone, old⟩ : ∃ (c : g.Block) (a : BlockId),
      (next.get c).contains a = false ∧ (doms.get c).contains a = true := by
    apply Classical.byContradiction
    intro none
    refine changed (Vector.ext fun i lt => BlockSet.ext fun a => ?_)
    have same := below ⟨i, lt⟩ a
    by_cases new : (next.get ⟨i, lt⟩).contains a = true
    · exact new.trans (same new).symm
    · by_cases old : (doms.get ⟨i, lt⟩).contains a = true
      · exact absurd ⟨⟨i, lt⟩, a, by simpa using new, old⟩ none
      · exact (Bool.eq_false_iff.mpr new).trans (Bool.eq_false_iff.mpr old).symm
  refine countP_lt_of_imp (x := (c, ⟨a, approx.bounded c a old⟩)) ?_ gone old (by simp)
  intro pair
  exact below pair.1 pair.2

/-- The blocks that a sweep refines. -/
def swept (g : FlowGraph) (order : List g.Block) : Prop :=
  ∀ b ∈ order, g.Reachable b ∧ b ≠ g.entry

/-- A sweep keeps an approximation and makes no set larger, by induction on the order. -/
theorem Approximates.sweep {doms : BlockTable g} (approx : g.Approximates doms)
    {order : List g.Block} (good : g.swept order)
    : g.Approximates (g.sweep g.reachable order doms)
      ∧ ∀ (c : g.Block) a, ((g.sweep g.reachable order doms).get c).contains a = true
          → (doms.get c).contains a = true := by
  induction order generalizing doms with
  | nil => exact ⟨approx, fun _ _ member => member⟩
  | cons b order ih =>
      obtain ⟨reach, other⟩ := good b (by simp)
      obtain ⟨swept, below⟩ := ih (approx.refineAt reach other)
        fun c member => good c (List.mem_cons_of_mem _ member)
      refine ⟨swept, fun c a member => ?_⟩
      have kept := below c a member
      rw [get_refineAt] at kept
      split at kept
      · next same => exact same ▸ approx.shrinks b reach other a kept
      · exact kept

/-- A sweep does not touch blocks that are not in its order. -/
theorem get_sweep_of_not_mem (doms : BlockTable g) {order : List g.Block} {c : g.Block}
    (absent : c ∉ order)
    : (g.sweep g.reachable order doms).get c = doms.get c := by
  induction order generalizing doms with
  | nil => rfl
  | cons b order ih =>
      simp only [List.mem_cons, not_or] at absent
      rw [FlowGraph.sweep, List.foldl_cons, ← FlowGraph.sweep, ih _ absent.2, get_refineAt,
        if_neg (Ne.symm absent.1)]

/-- If a sweep changes nothing, then no refinement on its way does, since each block is refined
once. By induction on the order.
-/
theorem refined_eq_of_sweep_eq {doms : BlockTable g} {order : List g.Block}
    (unique : order.Nodup) (stable : g.sweep g.reachable order doms = doms)
    : ∀ b ∈ order, g.refined doms b = doms.get b := by
  induction order with
  | nil => simp
  | cons b order ih =>
      obtain ⟨absent, unique⟩ := List.nodup_cons.mp unique
      rw [FlowGraph.sweep, List.foldl_cons, ← FlowGraph.sweep] at stable
      have head : g.refined doms b = doms.get b := by
        have final := get_sweep_of_not_mem (g.refineAt g.reachable doms b) absent
        rw [stable, get_refineAt, if_pos rfl] at final
        exact final.symm
      have same : g.refineAt g.reachable doms b = doms := by
        apply Vector.ext
        intro i lt
        have at_i := get_refineAt doms b ⟨i, lt⟩
        split at at_i
        · next eq => exact at_i.trans (head.trans (by rw [eq]; rfl))
        · exact at_i
      rw [same] at stable
      intro c member
      rcases List.mem_cons.mp member with rfl | member
      · exact head
      · exact ih unique stable c member

/-- With more rounds than pairs the iteration reaches a fixed point, by induction on the rounds:
every round but the last removes a pair.
-/
theorem sweepUntilStable_stable {order : List g.Block} (good : g.swept order) (fuel : Nat)
    {doms : BlockTable g} (approx : g.Approximates doms) (enough : g.weight doms < fuel)
    : let final := g.sweepUntilStable g.reachable order fuel doms
      g.Approximates final ∧ g.sweep g.reachable order final = final := by
  induction fuel generalizing doms with
  | zero => exact absurd enough (Nat.not_lt_zero _)
  | succ fuel ih =>
      simp only [sweepUntilStable]
      obtain ⟨next, below⟩ := approx.sweep good
      split
      · next stable => exact ⟨approx, stable⟩
      · next changed =>
          have lighter := weight_lt approx below changed
          exact ih next (by omega)

/-- The iteration gives what some number of sweeps gives, by induction on the rounds. -/
theorem exists_sweepUntilStable_eq_iterate (order : List g.Block) (fuel : Nat)
    (doms : BlockTable g)
    : ∃ rounds ≤ fuel,
        g.sweepUntilStable g.reachable order fuel doms
          = (g.sweep g.reachable order)^[rounds] doms := by
  induction fuel generalizing doms with
  | zero => exact ⟨0, Nat.le_refl 0, rfl⟩
  | succ fuel ih =>
      simp only [sweepUntilStable]
      split
      · exact ⟨0, Nat.zero_le _, rfl⟩
      · obtain ⟨rounds, le, same⟩ := ih (g.sweep g.reachable order doms)
        exact ⟨rounds + 1, Nat.succ_le_succ le, same⟩

-----------------------------------------------------------------------------------------
-- The result
-----------------------------------------------------------------------------------------

/-- The iteration ends: another sweep does not change the dominator sets. -/
theorem dominatorSets_stable (g : FlowGraph)
    : g.Approximates g.dominatorSets
      ∧ g.sweep g.reachable g.reversePostOrder.tail g.dominatorSets = g.dominatorSets := by
  obtain ⟨rest, order, -, listed⟩ := g.reversePostOrder_eq
  have good : g.swept g.reversePostOrder.tail := by
    rw [order, List.tail_cons]
    exact fun b member => (listed b).mp member
  have enough : g.weight g.initialDoms < g.size * g.size + 1 :=
    Nat.lt_succ_of_le (weight_le _)
  exact sweepUntilStable_stable good _ g.approximates_initialDoms enough

/-- The dominator sets satisfy their equations. -/
theorem dominatorSets_fixed (g : FlowGraph)
    : g.Approximates g.dominatorSets
      ∧ ∀ b, g.Reachable b → b ≠ g.entry → g.refined g.dominatorSets b = g.dominatorSets.get b := by
  obtain ⟨rest, order, unique, listed⟩ := g.reversePostOrder_eq
  obtain ⟨approx, stable⟩ := g.dominatorSets_stable
  rw [order, List.tail_cons] at stable
  refine ⟨approx, fun b reach other => ?_⟩
  exact refined_eq_of_sweep_eq unique stable b ((listed b).mpr ⟨reach, other⟩)

/-- The dominator sets are dominance. What is in a set lies on every walk, by induction on the walk
from its end: a member of the set of a block is the block or in the set of every predecessor.
-/
theorem contains_dominatorSets (a b : g.Block)
    : (g.dominatorSets.get b).contains a = true ↔ g.PathDominates a b := by
  obtain ⟨approx, fixed⟩ := g.dominatorSets_fixed
  refine ⟨fun member => ?_, approx.complete a b⟩
  have reach : g.Reachable b := by
    apply Classical.byContradiction
    intro unreachable
    simp [approx.unreachable b unreachable] at member
  refine ⟨reach, fun left walk => ?_⟩
  induction length : left.length generalizing left b with
  | zero =>
      obtain rfl := List.eq_nil_of_length_eq_zero length
      cases walk
      simp only [approx.entry, BlockSet.contains_insert, BlockSet.contains_empty, Bool.or_false,
        decide_eq_true_eq] at member
      exact .inr (Fin.ext member.symm)
  | succ n ih =>
      rcases walk.last with ⟨rfl, -⟩ | ⟨before, p, rfl, front, edge⟩
      · simp at length
      · by_cases isEntry : b = g.entry
        · subst isEntry
          simp only [approx.entry, BlockSet.contains_insert, BlockSet.contains_empty,
            Bool.or_false, decide_eq_true_eq] at member
          exact .inr (Fin.ext member.symm)
        · rw [← fixed b reach isEntry] at member
          simp only [refined, BlockSet.contains_insert, Bool.or_eq_true, decide_eq_true_eq,
            contains_meetOverPreds] at member
          rcases member with same | ⟨-, every⟩
          · exact .inr (Fin.ext same.symm)
          · have reachP : g.Reachable p := ⟨before, front⟩
            have found := ih p (every p reachP edge) reachP before front (by simpa using length)
            simpa using found.symm.elim (fun same => .inl (.inr same)) (fun old => .inl (.inl old))

end ThreeAddress.FlowGraph
