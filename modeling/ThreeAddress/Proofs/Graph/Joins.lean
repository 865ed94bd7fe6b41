import Mathlib.Data.List.Induction
import Mathlib.Order.Bounds.Basic
import ThreeAddress.Proofs.Graph.IteratedFrontier

/-! Joins of walks. The iterated frontier of some blocks has exactly the blocks where walks from
different ones among them come together, where the entry and all joins count as further sources.
-/

namespace ThreeAddress.FlowGraph

variable {g : FlowGraph}

/-- Two walks of one edge or more end in the same block and have no other block in common. -/
def Converge (g : FlowGraph) (a b f : g.Block) : Prop :=
  ∃ left right, g.Walk a left f ∧ left ≠ [] ∧ g.Walk b right f ∧ right ≠ []
    ∧ ∀ c ∈ left, c ∈ right → c = f

/-- A set has every block where walks converge that come from two different blocks among the given
ones and its own.
-/
def HasJoins (g : FlowGraph) (start joins : Set g.Block) : Prop :=
  ∀ a ∈ start ∪ joins, ∀ b ∈ start ∪ joins, a ≠ b → ∀ f, g.Converge a b f → f ∈ joins

/-- The last edges of walks that converge do not come from the same block, unless that is the end.
-/
theorem Converge.exists_preds {a b f : g.Block} (converge : g.Converge a b f)
    : ∃ p ∈ g.preds f, ∃ q ∈ g.preds f, p = q → p = f := by
  obtain ⟨left, right, walkA, movesA, walkB, movesB, apart⟩ := converge
  rcases walkA.last with ⟨none, -⟩ | ⟨_, p, rfl, -, edgeA⟩
  · exact absurd none movesA
  rcases walkB.last with ⟨none, -⟩ | ⟨_, q, rfl, -, edgeB⟩
  · exact absurd none movesB
  refine ⟨p, (g.mem_preds f p).mpr edgeA, q, (g.mem_preds f q).mpr edgeB, fun same => ?_⟩
  exact apart p (by simp) (by simp [same])

-----------------------------------------------------------------------------------------
-- Blocks of frontiers are joins
-----------------------------------------------------------------------------------------

/-- Some walk from a block to one that it dominates leaves only blocks that it dominates: the part
behind the last visit to it of a walk from the entry.
-/
theorem PathDominates.exists_dominated_walk {a p : g.Block} (dom : g.PathDominates a p)
    : ∃ left, g.Walk a left p ∧ ∀ c ∈ left, g.PathDominates a c := by
  by_cases same : a = p
  · exact ⟨[], same ▸ .stay a, by simp⟩
  obtain ⟨whole, walk⟩ := dom.1
  obtain ⟨before, after, rfl, absent⟩ :=
    exists_last_occurrence ((dom.2 whole walk).resolve_right same)
  refine ⟨a :: after, walk.split.2, fun c member => ?_⟩
  refine ⟨walk.reachable_of_mem (List.mem_append_right _ member), fun left toC => ?_⟩
  rcases List.mem_cons.mp member with rfl | later
  · exact .inr rfl
  · obtain ⟨front, rest, rfl⟩ := List.append_of_mem later
    rw [← List.cons_append, ← List.append_assoc] at walk
    have passes := (dom.2 _ (toC.append walk.split.2)).resolve_right same
    have ahead : a ∉ c :: rest := fun listed => absent (List.mem_append_right _ listed)
    exact .inl ((List.mem_append.mp passes).resolve_right ahead)

/-- No block that a walk from the entry leaves is dominated by one that it does not leave. -/
theorem Walk.not_dominates_of_not_mem {a c f : g.Block} {left : List g.Block}
    (walk : g.Walk g.entry left f) (member : c ∈ left) (absent : a ∉ left)
    : ¬ g.PathDominates a c := by
  intro dom
  obtain ⟨before, after, rfl⟩ := List.append_of_mem member
  rcases dom.2 before walk.split.1 with earlier | rfl
  · exact absent (List.mem_append_left _ earlier)
  · exact absent member

/-- A block that does not strictly dominate another one is left out by some walk to it. -/
theorem exists_avoiding_of_not_strict {a f : g.Block} (reach : g.Reachable f)
    (not : ¬ g.StrictlyPathDominates a f)
    : ∃ left, g.Walk g.entry left f ∧ a ∉ left := by
  by_cases same : a = f
  · exact same ▸ (same ▸ reach : g.Reachable a).exists_first
  · exact (PathDominates.exists_avoiding reach fun dom => not ⟨same, dom⟩).2

/-- Walks from a block and from the entry converge at every block of its frontier: one of blocks
that it dominates, and one that leaves it out.
-/
theorem InFrontier.converge (source : g.preds g.entry = []) {a f : g.Block}
    (beyond : g.InFrontier a f)
    : a ≠ g.entry ∧ g.Converge a g.entry f := by
  obtain ⟨not, p, edge, dom⟩ := beyond
  obtain ⟨left, walk, dominated⟩ := dom.exists_dominated_walk
  obtain ⟨right, other, absent⟩ := exists_avoiding_of_not_strict (dom.1.succ edge) not
  cases other with
  | stay =>
      have listed := (g.mem_preds g.entry p).mpr edge
      rw [source] at listed
      exact absurd listed List.not_mem_nil
  | @step _ b _ right first rest =>
      have other : g.Walk g.entry (g.entry :: right) f := .step first rest
      refine ⟨fun same => absent (by simp [same]), left ++ [p], g.entry :: right, walk.snoc edge,
        by simp, other, by simp, fun c member shared => ?_⟩
      have above : g.PathDominates a c := by
        rcases List.mem_append.mp member with inside | last
        · exact dominated c inside
        · exact List.mem_singleton.mp last ▸ dom
      exact absurd above (other.not_dominates_of_not_mem shared absent)

-----------------------------------------------------------------------------------------
-- Joins are in the iterated frontier
-----------------------------------------------------------------------------------------

/-- A set has the frontiers of the given blocks and of its own. -/
def HasFrontiers (g : FlowGraph) (start joins : Set g.Block) : Prop :=
  ∀ a ∈ start ∪ joins, ∀ b, g.InFrontier a b → b ∈ joins

variable {start joins : Set g.Block}

/-- Along a walk from one of the blocks, either the end is in a set that has their frontiers, or a
block that the walk leaves strictly dominates the end. By induction from the end of the walk: of the
last edge either block dominates the block in front, and it strictly dominates the one behind or has
it in its frontier.
-/
theorem HasFrontiers.mem_or_exists_dominator (closed : g.HasFrontiers start joins)
    (reach : ∀ b, g.Reachable b) {a f : g.Block} {left : List g.Block} (walk : g.Walk a left f)
    (moves : left ≠ []) (source : a ∈ start ∪ joins)
    : f ∈ joins ∨ ∃ d ∈ left, d ∈ start ∪ joins ∧ g.StrictlyPathDominates d f := by
  induction left using List.reverseRecOn generalizing f with
  | nil => exact absurd rfl moves
  | append_singleton before p ih =>
      obtain ⟨front, edge⟩ : g.Walk a before p ∧ f ∈ g.succs p := by
        rcases walk.last with ⟨none, -⟩ | ⟨before', p', same, front, edge⟩
        · simp at none
        · obtain ⟨rfl, rfl⟩ := List.append_inj' same rfl |>.imp_right List.singleton_inj.mp
          exact ⟨front, edge⟩
      obtain ⟨d, listed, known, dom⟩
          : ∃ d ∈ before ++ [p], d ∈ start ∪ joins ∧ g.PathDominates d p := by
        have last (known : p ∈ start ∪ joins)
            : ∃ d ∈ before ++ [p], d ∈ start ∪ joins ∧ g.PathDominates d p :=
          ⟨p, by simp, known, .refl (reach p)⟩
        cases before with
        | nil =>
            cases front
            exact last source
        | cons b before =>
            rcases ih front (by simp) with joined | ⟨d, listed, known, strict⟩
            · exact last (.inr joined)
            · exact ⟨d, List.mem_append_left _ listed, known, strict.2⟩
      by_cases strict : g.StrictlyPathDominates d f
      · exact .inr ⟨d, listed, known, strict⟩
      · exact .inl (closed d known f ⟨strict, p, edge, dom⟩)

/-- A dominator of the end of a walk that the walk does not leave dominates all blocks on it. -/
theorem PathDominates.of_walk {a b d f : g.Block} {left : List g.Block} (dom : g.PathDominates d f)
    (other : d ≠ f) (reach : g.Reachable b) (walk : g.Walk a left f) (member : b ∈ left)
    (absent : d ∉ left)
    : g.PathDominates d b := by
  obtain ⟨before, after, rfl⟩ := List.append_of_mem member
  refine ⟨reach, fun toB front => .inl ?_⟩
  have passes := (dom.2 _ (front.append walk.split.2)).resolve_right other
  exact (List.mem_append.mp passes).resolve_right fun later =>
    absent (List.mem_append_right _ later)

/-- A set that has the frontiers has the joins. Otherwise each of two walks would leave a block that
strictly dominates the end, and as the walks do not share these, they would dominate each other.
-/
theorem HasFrontiers.hasJoins (closed : g.HasFrontiers start joins) (reach : ∀ b, g.Reachable b)
    : g.HasJoins start joins := by
  intro a sourceA b sourceB _ f converge
  obtain ⟨left, right, walkA, movesA, walkB, movesB, apart⟩ := converge
  rcases closed.mem_or_exists_dominator reach walkA movesA sourceA with
    joined | ⟨d, onLeft, -, aboveD⟩
  · exact joined
  rcases closed.mem_or_exists_dominator reach walkB movesB sourceB with
    joined | ⟨e, onRight, -, aboveE⟩
  · exact joined
  have offRight : d ∉ right := fun shared => aboveD.1 (apart d onLeft shared)
  have offLeft : e ∉ left := fun shared => aboveE.1 (apart e shared onRight)
  have de := aboveD.2.of_walk aboveD.1 (reach e) walkB onRight offRight
  have ed := aboveE.2.of_walk aboveE.1 (reach d) walkA onLeft offLeft
  exact absurd (de.antisymm ed ▸ onRight) offRight

/-- Where every block is reachable and no edge leads to the entry, the iterated frontier of some
blocks is the least set of joins of the blocks and the entry.
-/
theorem isLeast_iteratedFrontier (source : g.preds g.entry = []) (reach : ∀ b, g.Reachable b)
    (start : BlockSet)
    : IsLeast {joins | g.HasJoins (insert g.entry {b | start.contains b = true}) joins}
        {b | (g.iteratedFrontier g.domTree.frontiers start).contains b = true} := by
  have exact {a b : g.Block} : (g.domTree.frontiers.get a).contains b = true ↔ g.InFrontier a b :=
    contains_frontiers_domTree source a b
  constructor
  · refine HasFrontiers.hasJoins (fun a known b beyond => ?_) reach
    rcases known with (entry | given) | found
    · exact absurd entry (beyond.converge source).1
    · exact frontier_subset_iteratedFrontier (.inl given) (exact.mpr beyond)
    · exact frontier_subset_iteratedFrontier (.inr found) (exact.mpr beyond)
  · intro joins closed b found
    have step {a : g.Block}
        (known : a ∈ insert g.entry {b : g.Block | start.contains b = true} ∪ joins) (b : g.Block)
        (member : (g.domTree.frontiers.get a).contains b = true)
        : b ∈ joins := by
      obtain ⟨other, converge⟩ := (exact.mp member).converge source
      exact closed a known g.entry (.inl (.inl rfl)) other b converge
    exact iteratedFrontier_induction (P := (· ∈ joins)) (fun a given => step (.inl (.inr given)))
      (fun a known => step (.inr known)) b found

end ThreeAddress.FlowGraph
