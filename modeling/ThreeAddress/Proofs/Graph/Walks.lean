import ThreeAddress.Graph.FlowGraph

/-! Walks through a flow graph, and dominance as a statement about all of them. The order theory
of dominance is proved here from walks alone, without any algorithm.
-/

namespace ThreeAddress.FlowGraph

variable {g : FlowGraph}

/-- A walk from one block to another along edges. The list names the blocks that the walk leaves,
in order, so it does not count the arrival at the last block.
-/
inductive Walk (g : FlowGraph) : g.Block → List g.Block → g.Block → Prop
  | stay (a : g.Block) : g.Walk a [] a
  | step {a b c : g.Block} {left : List g.Block} (edge : b ∈ g.succs a) (rest : g.Walk b left c)
    : g.Walk a (a :: left) c

/-- Some walk from the entry arrives at the block. -/
def Reachable (g : FlowGraph) (b : g.Block) : Prop :=
  ∃ left, g.Walk g.entry left b

/-- The second block is reachable, and every walk from the entry to it passes through the first. -/
def PathDominates (g : FlowGraph) (a b : g.Block) : Prop :=
  g.Reachable b ∧ ∀ left, g.Walk g.entry left b → a ∈ left ∨ a = b

/-- The first block dominates the second and is another block. -/
def StrictlyPathDominates (g : FlowGraph) (a b : g.Block) : Prop :=
  a ≠ b ∧ g.PathDominates a b

-----------------------------------------------------------------------------------------
-- Joining and cutting walks
-----------------------------------------------------------------------------------------

/-- Walks compose, by induction on the first. -/
theorem Walk.append {a b c : g.Block} {left more : List g.Block}
    (first : g.Walk a left b) (second : g.Walk b more c)
    : g.Walk a (left ++ more) c := by
  induction first with
  | stay => exact second
  | step edge _ ih => exact .step edge (ih second)

/-- A walk can be prolonged by an edge. -/
theorem Walk.snoc {a b c : g.Block} {left : List g.Block}
    (walk : g.Walk a left b) (edge : c ∈ g.succs b)
    : g.Walk a (left ++ [b]) c :=
  walk.append (.step edge (.stay c))

/-- A walk that leaves some block has a last edge, by induction from its front. -/
theorem Walk.last {a c : g.Block} {left : List g.Block} (walk : g.Walk a left c)
    : (left = [] ∧ a = c)
      ∨ ∃ before p, left = before ++ [p] ∧ g.Walk a before p ∧ c ∈ g.succs p := by
  induction walk with
  | stay => exact .inl ⟨rfl, rfl⟩
  | @step a b c left edge rest ih =>
      apply Or.inr
      rcases ih with ⟨rfl, rfl⟩ | ⟨before, p, rfl, walk, last⟩
      · exact ⟨[], a, rfl, .stay a, edge⟩
      · exact ⟨a :: before, p, rfl, .step edge walk, last⟩

/-- A walk divides at any block it leaves, by induction on the part in front of that block. -/
theorem Walk.split {a c d : g.Block} {before after : List g.Block}
    (walk : g.Walk a (before ++ d :: after) c)
    : g.Walk a before d ∧ g.Walk d (d :: after) c := by
  induction before generalizing a with
  | nil =>
      cases walk with
      | step edge rest => exact ⟨.stay _, .step edge rest⟩
  | cons first before ih =>
      cases walk with
      | step edge rest =>
          obtain ⟨front, back⟩ := ih rest
          exact ⟨.step edge front, back⟩

/-- The part of a list behind the last occurrence of a member. -/
theorem exists_last_occurrence {α : Type} {x : α} {l : List α} (member : x ∈ l)
    : ∃ before after, l = before ++ x :: after ∧ x ∉ after := by
  obtain ⟨before, after, eq, absent⟩ := List.eq_append_cons_of_mem (List.mem_reverse.mpr member)
  refine ⟨after.reverse, before.reverse, ?_, by simpa using absent⟩
  simpa using congrArg List.reverse eq

-----------------------------------------------------------------------------------------
-- Reachability
-----------------------------------------------------------------------------------------

/-- The entry is reachable. -/
theorem reachable_entry (g : FlowGraph) : g.Reachable g.entry :=
  ⟨[], .stay _⟩

/-- What follows a reachable block is reachable. -/
theorem Reachable.succ {a b : g.Block} (reach : g.Reachable a) (edge : b ∈ g.succs a)
    : g.Reachable b := by
  obtain ⟨left, walk⟩ := reach
  exact ⟨left ++ [a], walk.snoc edge⟩

/-- Every block that a walk from the entry leaves is reachable. -/
theorem Walk.reachable_of_mem {b c : g.Block} {left : List g.Block}
    (walk : g.Walk g.entry left c) (member : b ∈ left)
    : g.Reachable b := by
  obtain ⟨before, after, rfl⟩ := List.append_of_mem member
  exact ⟨before, walk.split.1⟩

/-- Some walk arrives at a reachable block for the first time. -/
theorem Reachable.exists_first {b : g.Block} (reach : g.Reachable b)
    : ∃ left, g.Walk g.entry left b ∧ b ∉ left := by
  obtain ⟨left, walk⟩ := reach
  by_cases again : b ∈ left
  · obtain ⟨before, after, rfl, absent⟩ := List.eq_append_cons_of_mem again
    exact ⟨before, walk.split.1, absent⟩
  · exact ⟨left, walk, again⟩

/-- A reachable block other than the entry has a reachable predecessor that it does not dominate:
the one from which some walk arrives for the first time.
-/
theorem Reachable.exists_pred {b : g.Block} (reach : g.Reachable b) (other : b ≠ g.entry)
    : ∃ p, g.Reachable p ∧ b ∈ g.succs p ∧ ¬ g.PathDominates b p := by
  obtain ⟨left, walk, absent⟩ := reach.exists_first
  rcases walk.last with ⟨-, same⟩ | ⟨before, p, rfl, front, edge⟩
  · exact absurd same.symm other
  · refine ⟨p, ⟨before, front⟩, edge, fun dom => ?_⟩
    simp only [List.mem_append, List.mem_singleton, not_or] at absent
    exact (dom.2 before front).elim absent.1 absent.2

-----------------------------------------------------------------------------------------
-- Dominance is a partial order whose down-sets are chains
-----------------------------------------------------------------------------------------

namespace PathDominates

/-- A reachable block dominates itself. -/
theorem refl {b : g.Block} (reach : g.Reachable b) : g.PathDominates b b :=
  ⟨reach, fun _ _ => .inr rfl⟩

/-- The entry dominates every reachable block, since walks start there. -/
theorem entry {b : g.Block} (reach : g.Reachable b) : g.PathDominates g.entry b := by
  refine ⟨reach, fun left walk => ?_⟩
  cases walk with
  | stay => exact .inr rfl
  | step => exact .inl (by simp)

/-- A dominator is reachable, since it lies on a walk from the entry. -/
theorem reachable {a b : g.Block} (dom : g.PathDominates a b) : g.Reachable a := by
  obtain ⟨⟨left, walk⟩, passes⟩ := dom
  rcases passes left walk with member | rfl
  · exact walk.reachable_of_mem member
  · exact ⟨left, walk⟩

/-- Dominance is transitive: a walk is cut at the middle block. -/
theorem trans {a b c : g.Block} (first : g.PathDominates a b) (second : g.PathDominates b c)
    : g.PathDominates a c := by
  refine ⟨second.1, fun left walk => ?_⟩
  rcases second.2 left walk with member | rfl
  · obtain ⟨before, after, rfl⟩ := List.append_of_mem member
    rcases first.2 before walk.split.1 with earlier | rfl
    · exact .inl (List.mem_append_left _ earlier)
    · exact .inl (by simp)
  · exact first.2 left walk

/-- Two blocks that dominate each other are one. A walk to the first block is cut at the first
visit to the second, and that part at a visit to the first.
-/
theorem antisymm {a b : g.Block} (ab : g.PathDominates a b) (ba : g.PathDominates b a)
    : a = b := by
  apply Classical.byContradiction
  intro other
  obtain ⟨left, walk⟩ := ba.1
  have visits : b ∈ left := (ba.2 left walk).resolve_right (Ne.symm other)
  obtain ⟨before, after, rfl, absent⟩ := List.eq_append_cons_of_mem visits
  have front := walk.split.1
  obtain ⟨u, v, rfl⟩ := List.append_of_mem ((ab.2 before front).resolve_right other)
  have missing : b ∉ u := fun member => absent (List.mem_append_left _ member)
  exact (ba.2 u front.split.1).elim missing (Ne.symm other)

/-- A block that does not dominate a reachable one is avoided by some walk to it. -/
theorem exists_avoiding {a b : g.Block} (reach : g.Reachable b) (not : ¬ g.PathDominates a b)
    : a ≠ b ∧ ∃ left, g.Walk g.entry left b ∧ a ∉ left := by
  apply Classical.byContradiction
  intro none
  refine not ⟨reach, fun left walk => ?_⟩
  apply Classical.byContradiction
  intro missed
  exact none ⟨fun same => missed (.inr same), left, walk, fun member => missed (.inl member)⟩

/-- The dominators of a block form a chain. If neither of two dominated the other, the walk to the
one visited last could be replaced by a walk that avoids the other.
-/
theorem total {a b c : g.Block} (ac : g.PathDominates a c) (bc : g.PathDominates b c)
    : g.PathDominates a b ∨ g.PathDominates b a := by
  apply Classical.byContradiction
  intro neither
  obtain ⟨notAB, notBA⟩ := not_or.mp neither
  obtain ⟨other, toB, walkB, avoidsA⟩ := exists_avoiding bc.reachable notAB
  obtain ⟨-, toA, walkA, avoidsB⟩ := exists_avoiding ac.reachable notBA
  have aNotEnd : a ≠ c := fun same => notBA (same ▸ bc)
  have bNotEnd : b ≠ c := fun same => notAB (same ▸ ac)
  obtain ⟨left, walk⟩ := ac.1
  obtain ⟨u, v, rfl, lastB⟩ := exists_last_occurrence ((bc.2 left walk).resolve_right bNotEnd)
  by_cases later : a ∈ v
  · obtain ⟨v, w, rfl⟩ := List.append_of_mem later
    have tail : g.Walk a (a :: w) c := by
      rw [← List.cons_append, ← List.append_assoc] at walk
      exact walk.split.2
    refine (bc.2 _ (walkA.append tail)).elim ?_ bNotEnd
    simp only [List.mem_append, List.mem_cons, not_or] at lastB ⊢
    exact not_or.mpr ⟨avoidsB, not_or.mpr ⟨Ne.symm other, lastB.2.2⟩⟩
  · refine (ac.2 _ (walkB.append walk.split.2)).elim ?_ aNotEnd
    simp only [List.mem_append, List.mem_cons]
    exact not_or.mpr ⟨avoidsA, not_or.mpr ⟨other, later⟩⟩

/-- A strict dominator of a block dominates each reachable predecessor of it. -/
theorem of_succ {a b p : g.Block} (dom : g.PathDominates a b) (other : a ≠ b)
    (reach : g.Reachable p) (edge : b ∈ g.succs p)
    : g.PathDominates a p := by
  refine ⟨reach, fun left walk => ?_⟩
  have visits := (dom.2 _ (walk.snoc edge)).resolve_right other
  simpa using visits

/-- Only the entry dominates the entry. -/
theorem eq_entry {a : g.Block} (dom : g.PathDominates a g.entry) : a = g.entry :=
  (dom.2 [] (.stay _)).resolve_left List.not_mem_nil

end PathDominates

namespace StrictlyPathDominates

/-- Strict dominance composes with dominance above it. -/
theorem trans_right {a b c : g.Block} (first : g.PathDominates a b)
    (second : g.StrictlyPathDominates b c)
    : g.StrictlyPathDominates a c := by
  refine ⟨fun same => ?_, first.trans second.2⟩
  subst same
  exact second.1 (second.2.antisymm first)

/-- Strict dominance composes with dominance below it. -/
theorem trans_left {a b c : g.Block} (first : g.StrictlyPathDominates a b)
    (second : g.PathDominates b c)
    : g.StrictlyPathDominates a c := by
  refine ⟨fun same => ?_, first.2.trans second⟩
  subst same
  exact first.1 (first.2.antisymm second)

end StrictlyPathDominates

end ThreeAddress.FlowGraph
