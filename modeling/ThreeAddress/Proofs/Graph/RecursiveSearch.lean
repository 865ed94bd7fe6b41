import ThreeAddress.Proofs.Graph.DominatorTree
import ThreeAddress.Proofs.Graph.Traversal

/-! The traversal with a stack reports blocks in the order of the recursive depth-first search. A
block may lie on the stack several times, but what lies under its uppermost copy comes to the top
only when the block is finished, so all copies but one are dropped.
-/

namespace ThreeAddress.FlowGraph

variable {g : FlowGraph}

-----------------------------------------------------------------------------------------
-- Sets that grow
-----------------------------------------------------------------------------------------

theorem contains_insert_block (set : BlockSet) (b c : g.Block)
    : (set.insert b).contains c = true ↔ c = b ∨ set.contains c = true := by
  rw [BlockSet.contains_insert, Bool.or_eq_true, decide_eq_true_eq, Fin.ext_iff, eq_comm]

/-- The set together with the blocks that have been found. -/
def withFound (set : BlockSet) (found : List g.Block) : BlockSet :=
  found.foldl (fun (set : BlockSet) (b : g.Block) => set.insert b) set

theorem withFound_append (set : BlockSet) (found more : List g.Block)
    : withFound set (found ++ more) = withFound (withFound set found) more :=
  List.foldl_append

theorem withFound_cons (set : BlockSet) (b : g.Block) (found : List g.Block)
    : withFound set (b :: found) = withFound (set.insert b) found :=
  rfl

@[simp] theorem contains_withFound (set : BlockSet) (found : List g.Block) (b : g.Block)
    : (withFound set found).contains b = true ↔ set.contains b = true ∨ b ∈ found := by
  induction found generalizing set with
  | nil => simp [withFound]
  | cons c found ih =>
      rw [withFound_cons, ih, contains_insert_block, List.mem_cons, or_comm (a := b = c), or_assoc]

/-- It makes no difference whether a block is added before others or after them. -/
theorem withFound_insert (set : BlockSet) (b : g.Block) (found : List g.Block)
    : withFound (set.insert b) found = (withFound set found).insert b := by
  induction found generalizing set with
  | nil => rfl
  | cons c found ih =>
      have either : (set.insert b).insert c = (set.insert c).insert b :=
        BlockSet.ext fun n => by simp [Bool.or_left_comm]
      rw [withFound_cons, withFound_cons, either, ih]

/-- A set that has all blocks of another one, and a block outside of that, leaves fewer outside. -/
theorem countOutside_lt (g : FlowGraph) {set more : BlockSet} {b : g.Block}
    (grows : ∀ c : g.Block, set.contains c = true → more.contains c = true)
    (outside : set.contains b = false) (inside : more.contains b = true)
    : g.countOutside more < g.countOutside set := by
  refine countP_lt_of_imp (fun c absent => ?_) (x := b) ?_ ?_ (g.mem_blocks b)
  · cases known : set.contains c with
    | false => rfl
    | true => simp [grows c known] at absent
  · simp [inside]
  · simp [outside]

-----------------------------------------------------------------------------------------
-- The recursive search
-----------------------------------------------------------------------------------------

/-- Recursive depth-first search from several blocks in turn. A block that has been visited is
skipped. From a new one the search goes on to its successors, in the order of the edges, and the
block is reported behind all that is found from these.
-/
def search (g : FlowGraph) (visited : BlockSet) : List g.Block → List g.Block
  | [] => []
  | b :: rest =>
    if visited.contains b then g.search visited rest
    else
      let below := g.search (visited.insert b) (g.succs b)
      below ++ b :: g.search (withFound (visited.insert b) below) rest
termination_by sources => (g.countOutside visited, sources.length)
decreasing_by
  · exact Prod.Lex.right _ (by simp)
  · exact Prod.Lex.left _ _ (g.countOutside_insert_lt (by simp_all))
  · exact Prod.Lex.left _ _ (g.countOutside_lt (b := b) (by simp_all) (by simp_all) (by simp))

variable {visited : BlockSet} {sources : List g.Block}

/-- Only new blocks are found. -/
theorem not_visited_of_mem_search {b : g.Block} (found : b ∈ g.search visited sources)
    : visited.contains b = false := by
  fun_induction g.search visited sources with
  | case1 => simp at found
  | case2 visited a rest old ih => exact ih found
  | case3 visited a rest new below ihBelow ihAfter =>
      refine Bool.eq_false_iff.mpr fun old => ?_
      have entered := (contains_insert_block visited a b).mpr (.inr old)
      rcases List.mem_append.mp found with inner | later
      · exact Bool.eq_false_iff.mp (ihBelow inner) entered
      · rcases List.mem_cons.mp later with rfl | after
        · exact new old
        · exact Bool.eq_false_iff.mp (ihAfter after)
            ((contains_withFound _ below b).mpr (.inl entered))

/-- All sources are found that have not been visited. -/
theorem mem_search_of_mem (visited : BlockSet) {b : g.Block} (source : b ∈ sources)
    : visited.contains b = true ∨ b ∈ g.search visited sources := by
  fun_induction g.search visited sources with
  | case1 => simp at source
  | case2 visited a rest old ih =>
      rcases List.mem_cons.mp source with rfl | source
      · exact .inl old
      · exact ih source
  | case3 visited a rest new below ihBelow ihAfter =>
      rcases List.mem_cons.mp source with rfl | source
      · exact .inr (by simp)
      · have known := ihAfter source
        simp only [contains_withFound, contains_insert_block] at known
        simp only [List.mem_append, List.mem_cons]
        tauto

/-- What is found is found from one of the sources. -/
theorem exists_walk_of_mem_search {b : g.Block} (found : b ∈ g.search visited sources)
    : ∃ source ∈ sources, ∃ left, g.Walk source left b := by
  fun_induction g.search visited sources with
  | case1 => simp at found
  | case2 visited a rest old ih =>
      obtain ⟨source, member, walk⟩ := ih found
      exact ⟨source, List.mem_cons_of_mem _ member, walk⟩
  | case3 visited a rest new below ihBelow ihAfter =>
      rcases List.mem_append.mp found with inner | later
      · obtain ⟨next, edge, left, walk⟩ := ihBelow inner
        exact ⟨a, List.mem_cons_self, a :: left, .step edge walk⟩
      · rcases List.mem_cons.mp later with rfl | after
        · exact ⟨b, List.mem_cons_self, [], .stay b⟩
        · obtain ⟨source, member, walk⟩ := ihAfter after
          exact ⟨source, List.mem_cons_of_mem _ member, walk⟩

/-- A block is found behind each of its successors, unless the successor has been visited before or
leads back to the block. By induction on the search: when a block is reported, each successor has
been found, or the search is still going on from it.
-/
theorem succ_before_of_mem_search {u v : g.Block} (found : u ∈ g.search visited sources)
    (edge : v ∈ g.succs u)
    : visited.contains v = true ∨ [v, u].Sublist (g.search visited sources)
      ∨ ∃ left, g.Walk v left u := by
  fun_induction g.search visited sources with
  | case1 => simp at found
  | case2 visited a rest old ih => exact ih found
  | case3 visited a rest new below ihBelow ihAfter =>
      rcases List.mem_append.mp found with inner | later
      · rcases ihBelow inner with known | before | back
        · rcases (contains_insert_block visited a v).mp known with rfl | known
          · obtain ⟨next, first, left, walk⟩ := exists_walk_of_mem_search inner
            exact .inr (.inr ⟨v :: left, .step first walk⟩)
          · exact .inl known
        · exact .inr (.inl (before.trans (List.sublist_append_left ..)))
        · exact .inr (.inr back)
      · rcases List.mem_cons.mp later with rfl | after
        · rcases mem_search_of_mem (visited.insert u) edge with known | inner
          · rcases (contains_insert_block visited u v).mp known with rfl | known
            · exact .inr (.inr ⟨[], .stay v⟩)
            · exact .inl known
          · exact .inr (.inl ((List.singleton_sublist.mpr inner).append (by simp)))
        · rcases ihAfter after with known | before | back
          · have behind := List.singleton_sublist.mpr after
            simp only [contains_withFound, contains_insert_block] at known
            rcases known with (rfl | known) | inner
            · exact .inr (.inl ((behind.cons_cons v).trans (List.sublist_append_right ..)))
            · exact .inl known
            · exact .inr (.inl ((List.singleton_sublist.mpr inner).append (behind.cons a)))
          · exact .inr (.inl ((before.cons a).trans (List.sublist_append_right ..)))
          · exact .inr (.inr back)

-----------------------------------------------------------------------------------------
-- The stack
-----------------------------------------------------------------------------------------

/-- Since the time when the blocks of the first set had been visited, the traversal has finished all
that it has visited.
-/
structure FinishedSince (g : FlowGraph) (before visited finished : BlockSet) : Prop where
  kept : ∀ b : g.Block, before.contains b = true → visited.contains b = true
  closed
    : ∀ b : g.Block,
        visited.contains b = true → before.contains b = true ∨ finished.contains b = true
  finished_visited : ∀ b : g.Block, finished.contains b = true → visited.contains b = true

/-- A block that is entered starts a new time, since which nothing has been visited. -/
theorem FinishedSince.enter {before visited finished : BlockSet}
    (since : g.FinishedSince before visited finished) (b : g.Block)
    : g.FinishedSince (visited.insert b) (visited.insert b) finished where
  kept _ member := member
  closed _ member := .inl member
  finished_visited c done := by simp [since.finished_visited c done]

/-- A block that has been entered is finished together with all that has been found from it. -/
theorem FinishedSince.leave {before visited finished : BlockSet}
    (since : g.FinishedSince before visited finished) (b : g.Block) (below : List g.Block)
    : g.FinishedSince before (withFound (visited.insert b) below)
        ((withFound finished below).insert b) where
  kept c member := by simp [since.kept c member]
  closed c member := by
    have settled := since.closed c
    simp only [contains_withFound, contains_insert_block] at member ⊢
    tauto
  finished_visited c done := by
    have entered := since.finished_visited c
    simp only [contains_withFound, contains_insert_block] at done ⊢
    tauto

/-- The blocks on top of the stack are searched in turn, and then the traversal goes on with the
stack under them. Blocks may be missing from the top if they had been visited at a time since which
all that has been visited is finished: when a block is entered, its visited successors are missing.
By induction on the search, which finds the same in the successors as the traversal does before the
block comes to the top again.
-/
theorem postOrderFrom_append {before finished : BlockSet}
    (since : g.FinishedSince before visited finished) (sources under : List g.Block)
    : g.postOrderFrom visited finished
        ((sources.filter fun b : g.Block => !before.contains b) ++ under)
      = g.search visited sources
        ++ g.postOrderFrom (withFound visited (g.search visited sources))
            (withFound finished (g.search visited sources)) under := by
  fun_induction g.search visited sources generalizing before finished under with
  | case1 visited => rfl
  | case2 visited b rest old ih =>
      rw [← ih since under]
      cases known : before.contains b with
      | true => simp [known]
      | false =>
          have done : finished.contains b = true := by simpa [known] using since.closed b old
          rw [List.filter_cons_of_pos (by simp [known]), List.cons_append, postOrderFrom,
            if_pos old, if_pos done]
  | case3 visited b rest new below ihBelow =>
      rename_i ihAfter
      have missing : before.contains b = false :=
        Bool.eq_false_iff.mpr fun known => new (since.kept b known)
      have open_ : ¬ (withFound finished below).contains b = true := by
        rw [contains_withFound, not_or]
        refine ⟨mt (since.finished_visited b) new, fun found => ?_⟩
        simpa using not_visited_of_mem_search found
      -- of the successors, those are left out that had been visited when the block was entered
      have inner := ihBelow (since.enter b)
        (b :: ((rest.filter fun b : g.Block => !before.contains b) ++ under))
      have outer := ihAfter (since.leave b below) under
      rw [List.filter_cons_of_pos (by simp [missing]), List.cons_append, postOrderFrom, if_neg new,
        inner, postOrderFrom, if_pos (by simp), if_neg open_, outer]
      simp only [below, List.append_assoc, List.cons_append, withFound_append, withFound_cons,
        withFound_insert visited]

-----------------------------------------------------------------------------------------
-- The traversal from the entry
-----------------------------------------------------------------------------------------

theorem postOrder_eq_search (g : FlowGraph) : g.postOrder = g.search .empty [g.entry] := by
  have start : g.FinishedSince .empty .empty .empty :=
    { kept := by simp, closed := by simp, finished_visited := by simp }
  have whole := postOrderFrom_append start [g.entry] []
  simpa [postOrder, postOrderFrom] using whole

/-- The traversal reports what the recursive search from the entry does, in the same order. So it
reports every reachable block once and nothing else, its reverse starts with the entry, and in the
reverse a block precedes all its successors that do not lead back to it.
-/
theorem postOrder_depth_first (g : FlowGraph)
    : g.postOrder = g.search .empty [g.entry]
      ∧ g.postOrder.Nodup ∧ (∀ b, b ∈ g.postOrder ↔ g.Reachable b)
      ∧ g.reversePostOrder.head? = some g.entry
      ∧ ∀ u v, g.Reachable u → v ∈ g.succs u → (¬ ∃ left, g.Walk v left u) →
          [u, v].Sublist g.reversePostOrder := by
  refine ⟨g.postOrder_eq_search, (postOrderFrom_nodup _ _ _).1, fun b => mem_postOrder, ?_, ?_⟩
  · obtain ⟨rest, first, -⟩ := g.reversePostOrder_eq
    rw [first, List.head?_cons]
  · intro u v reach edge onward
    have found := mem_postOrder.mpr reach
    rw [postOrder_eq_search] at found
    rcases succ_before_of_mem_search found edge with known | before | back
    · simp at known
    · rw [reversePostOrder, postOrder_eq_search]
      exact before.reverse
    · exact absurd back onward

/-- One of the two blocks that the entry leads to is on the stack twice. It is reported once, behind
its successor and in front of the block that it leads back to.
-/
theorem postOrder_depth_first_irreducibleLoop
    : irreducibleLoop.search .empty [0] = [3, 2, 1, 0] ∧ irreducibleLoop.Reachable 2
      ∧ (3 : irreducibleLoop.Block) ∈ irreducibleLoop.succs 2
      ∧ (¬ ∃ left, irreducibleLoop.Walk 3 left 2)
      ∧ [2, 3].Sublist irreducibleLoop.reversePostOrder := by
  obtain ⟨same, -, reached, -, ordered⟩ := postOrder_depth_first irreducibleLoop
  have order : irreducibleLoop.postOrder = [3, 2, 1, 0] := by cbv
  have reach : irreducibleLoop.Reachable 2 := (reached 2).mp (by rw [order]; decide)
  have onward : ¬ ∃ left, irreducibleLoop.Walk 3 left 2 := by
    have stays {a b : irreducibleLoop.Block} {left : List irreducibleLoop.Block}
        (walk : irreducibleLoop.Walk a left b) (last : a = 3)
        : b = 3 := by
      induction walk with
      | stay => exact last
      | step edge _ ih =>
          subst last
          exact ih (List.mem_singleton.mp edge)
    intro back
    obtain ⟨left, walk⟩ := back
    exact absurd (stays walk rfl) (by decide)
  exact ⟨same.symm.trans order, reach, by decide, onward, ordered 2 3 reach (by decide) onward⟩

end ThreeAddress.FlowGraph
