import Mathlib
import ThreeAddress.Graph.DepthFirst
import ThreeAddress.Proofs.Graph.Walks

/-! The depth-first traversal reports every reachable block exactly once and no other block, and
the entry last.

The traversal recurses on a measure, so a run that goes through it is evaluated by `cbv` and not by
`decide`. `cbv` unfolds library functions by their equation lemmas. All of Mathlib is imported here,
once, so that no module above this one generates a second copy of those that Mathlib has.
-/

namespace ThreeAddress

/-- The members of the set of a list are those of the list. -/
@[simp] theorem BlockSet.contains_ofList (blocks : List BlockId) (b : BlockId)
    : (BlockSet.ofList blocks).contains b = true ↔ b ∈ blocks := by
  have general (set : BlockSet)
      : (blocks.foldl BlockSet.insert set).contains b = true
        ↔ b ∈ blocks ∨ set.contains b = true := by
    induction blocks generalizing set with
    | nil => simp
    | cons c blocks ih =>
        simp only [List.foldl_cons, ih, BlockSet.contains_insert, Bool.or_eq_true,
          decide_eq_true_eq, List.mem_cons, eq_comm (a := c)]
        rw [or_assoc]
        exact or_left_comm
  simpa [BlockSet.ofList] using general .empty

namespace FlowGraph

variable {g : FlowGraph}

/-- A block is in the set of a list exactly when it is in the list. -/
@[simp] theorem contains_setOf (blocks : List g.Block) (b : g.Block)
    : (setOf blocks).contains b = true ↔ b ∈ blocks := by
  simp only [setOf, BlockSet.contains_ofList, List.mem_map]
  constructor
  · intro listed
    obtain ⟨c, member, same⟩ := listed
    exact Fin.ext same ▸ member
  · intro member
    exact ⟨b, member, rfl⟩

/-- What holds between the sets and the stack of a traversal: finished blocks have been visited,
and a visited block is finished or will come to the top of the stack again, after its successors.
-/
structure Traversing (g : FlowGraph) (visited finished : BlockSet) (stack : List g.Block)
    : Prop where
  finished_visited : ∀ b : g.Block, finished.contains b = true → visited.contains b = true
  visited_pending
    : ∀ b : g.Block, visited.contains b = true → finished.contains b = true ∨ b ∈ stack
  succs_pending
    : ∀ b : g.Block,
        visited.contains b = true → ∀ s ∈ g.succs b, visited.contains s = true ∨ s ∈ stack

/-- A finished block on top of the stack is dropped. -/
theorem Traversing.drop {visited finished : BlockSet} {b : g.Block} {rest : List g.Block}
    (inv : g.Traversing visited finished (b :: rest))
    (done : finished.contains b = true)
    : g.Traversing visited finished rest where
  finished_visited := inv.finished_visited
  visited_pending := by
    intro c seen
    rcases inv.visited_pending c seen with old | member
    · exact .inl old
    · rcases List.mem_cons.mp member with rfl | member
      · exact .inl done
      · exact .inr member
  succs_pending := by
    intro c seen s edge
    rcases inv.succs_pending c seen s edge with old | member
    · exact .inl old
    · rcases List.mem_cons.mp member with rfl | member
      · exact .inl (inv.finished_visited s done)
      · exact .inr member

/-- A visited block that comes to the top of the stack is finished, and keeps its place for now. -/
theorem Traversing.finish {visited finished : BlockSet} {b : g.Block} {rest : List g.Block}
    (inv : g.Traversing visited finished (b :: rest))
    (seen : visited.contains b = true)
    : g.Traversing visited (finished.insert b) (b :: rest) where
  finished_visited := by
    intro c done
    simp only [BlockSet.contains_insert, Bool.or_eq_true, decide_eq_true_eq] at done
    rcases done with same | done
    · exact Fin.ext same ▸ seen
    · exact inv.finished_visited c done
  visited_pending := by
    intro c seen
    rcases inv.visited_pending c seen with old | member
    · exact .inl (by simp [old])
    · exact .inr member
  succs_pending := inv.succs_pending

/-- A new block is entered: its unvisited successors go on the stack above it. -/
theorem Traversing.enter {visited finished : BlockSet} {b : g.Block} {rest : List g.Block}
    (inv : g.Traversing visited finished (b :: rest))
    : g.Traversing (visited.insert b) finished
        (((g.succs b).filter fun s : g.Block => !(visited.insert b).contains s) ++ b :: rest) where
  finished_visited := by
    intro c done
    simp [inv.finished_visited c done]
  visited_pending := by
    intro c seen
    simp only [BlockSet.contains_insert, Bool.or_eq_true, decide_eq_true_eq] at seen
    rcases seen with same | seen
    · exact .inr (by simp [Fin.ext same])
    · exact (inv.visited_pending c seen).imp_right (List.mem_append_right _)
  succs_pending := by
    intro c seen s edge
    by_cases old : (visited.insert b).contains s = true
    · exact .inl old
    · simp only [BlockSet.contains_insert, Bool.or_eq_true, decide_eq_true_eq] at seen
      rcases seen with same | seen
      · obtain rfl := Fin.ext same
        refine .inr (List.mem_append_left _ (List.mem_filter.mpr ⟨edge, ?_⟩))
        simpa using old
      · rcases inv.succs_pending c seen s edge with found | member
        · exact absurd (by simp [found]) old
        · exact .inr (List.mem_append_right _ member)

/-- A traversal closes the finished blocks under edges: in the end every visited block, everything
on the stack and all successors of these are finished. By induction on the traversal.
-/
theorem Traversing.closes {visited finished : BlockSet} {stack : List g.Block}
    (inv : g.Traversing visited finished stack)
    : let final (b : g.Block) := finished.contains b = true
        ∨ b ∈ g.postOrderFrom visited finished stack
      (∀ b : g.Block, visited.contains b = true → final b) ∧ (∀ b ∈ stack, final b)
        ∧ ∀ b, final b → ∀ s ∈ g.succs b, final s := by
  fun_induction g.postOrderFrom visited finished stack with
  | case1 visited finished =>
      have visited_finished (b : g.Block) (seen : visited.contains b = true)
          : finished.contains b = true :=
        (inv.visited_pending b seen).resolve_right List.not_mem_nil
      refine ⟨fun b seen => .inl (visited_finished b seen), by simp, ?_⟩
      intro b done s edge
      have seen := inv.finished_visited b (done.resolve_right List.not_mem_nil)
      exact .inl (visited_finished s
        ((inv.succs_pending b seen s edge).resolve_right List.not_mem_nil))
  | case2 visited finished b rest seen done ih =>
      obtain ⟨ofVisited, ofRest, closed⟩ := ih (inv.drop done)
      refine ⟨ofVisited, ?_, closed⟩
      intro c member
      rcases List.mem_cons.mp member with rfl | member
      · exact .inl done
      · exact ofRest c member
  | case3 visited finished b rest seen open_ ih =>
      obtain ⟨ofVisited, ofRest, closed⟩ := ih ((inv.finish seen).drop (by simp))
      have shift (c : g.Block)
          : ((finished.insert b).contains c = true
              ∨ c ∈ g.postOrderFrom visited (finished.insert b) rest)
            ↔ (finished.contains c = true
              ∨ c ∈ b :: g.postOrderFrom visited (finished.insert b) rest) := by
        simp only [BlockSet.contains_insert, Bool.or_eq_true, decide_eq_true_eq, List.mem_cons,
          eq_comm (a := c), Fin.ext_iff]
        grind
      refine ⟨fun c old => (shift c).mp (ofVisited c old), ?_, ?_⟩
      · intro c member
        rcases List.mem_cons.mp member with rfl | member
        · exact .inr (by simp)
        · exact (shift c).mp (ofRest c member)
      · intro c final s edge
        exact (shift s).mp (closed c ((shift c).mpr final) s edge)
  | case4 visited finished b rest new visited' fresh ih =>
      obtain ⟨ofVisited, ofStack, closed⟩ := ih inv.enter
      refine ⟨fun c old => ofVisited c ?_, fun c member => ofStack c ?_, closed⟩
      · simp [visited', old]
      · exact List.mem_append_right _ member

/-- Only blocks on the stack and blocks reached from them are reported, by induction on the
traversal.
-/
theorem reachable_of_mem_postOrderFrom {visited finished : BlockSet} {stack : List g.Block}
    (reach : ∀ b ∈ stack, g.Reachable b)
    : ∀ b ∈ g.postOrderFrom visited finished stack, g.Reachable b := by
  fun_induction g.postOrderFrom visited finished stack with
  | case1 => simp
  | case2 visited finished b rest seen done ih =>
      exact ih fun c member => reach c (by simp [member])
  | case3 visited finished b rest seen open_ ih =>
      intro c member
      rcases List.mem_cons.mp member with rfl | member
      · exact reach c (by simp)
      · exact ih (fun d old => reach d (by simp [old])) c member
  | case4 visited finished b rest new visited' fresh ih =>
      apply ih
      intro c member
      rcases List.mem_append.mp member with found | member
      · exact (reach b (by simp)).succ (List.mem_filter.mp found).1
      · exact reach c member

/-- No block is reported twice, and none that was finished before, by induction on the traversal. -/
theorem postOrderFrom_nodup (visited finished : BlockSet) (stack : List g.Block)
    : (g.postOrderFrom visited finished stack).Nodup
      ∧ ∀ b ∈ g.postOrderFrom visited finished stack, finished.contains b = false := by
  fun_induction g.postOrderFrom visited finished stack with
  | case1 => simp
  | case2 visited finished b rest seen done ih => exact ih
  | case3 visited finished b rest seen open_ ih =>
      obtain ⟨unique, unfinished⟩ := ih
      refine ⟨List.nodup_cons.mpr ⟨fun member => ?_, unique⟩, fun c member => ?_⟩
      · simpa using unfinished b member
      · rcases List.mem_cons.mp member with rfl | member
        · simpa using open_
        · have outside := unfinished c member
          simp only [BlockSet.contains_insert, Bool.or_eq_false_iff] at outside
          exact outside.2
  | case4 visited finished b rest new visited' fresh ih => exact ih

/-- A block that lies at the bottom of the stack, entered and unfinished, is reported last. By
induction on the traversal: it does not get onto the stack a second time.
-/
theorem postOrderFrom_bottom (visited finished : BlockSet) (stack : List g.Block) (e : g.Block)
    (seen : visited.contains e = true) (unfinished : finished.contains e = false)
    (absent : e ∉ stack)
    : ∃ front, g.postOrderFrom visited finished (stack ++ [e]) = front ++ [e] := by
  fun_induction g.postOrderFrom visited finished stack with
  | case1 visited finished =>
      refine ⟨[], ?_⟩
      rw [List.nil_append, postOrderFrom, if_pos seen, if_neg (by simp [unfinished]),
        postOrderFrom]
  | case2 visited finished b rest old done ih =>
      rw [List.cons_append, postOrderFrom, if_pos old, if_pos done]
      exact ih seen unfinished fun member => absent (List.mem_cons_of_mem _ member)
  | case3 visited finished b rest old open_ ih =>
      rw [List.cons_append, postOrderFrom, if_pos old, if_neg open_]
      simp only [List.mem_cons, not_or] at absent
      obtain ⟨front, eq⟩ := ih seen
        (by simpa [unfinished] using fun same => absent.1 (Fin.ext same).symm) absent.2
      exact ⟨b :: front, by rw [eq, List.cons_append]⟩
  | case4 visited finished b rest new visited' fresh ih =>
      rw [List.cons_append, postOrderFrom, if_neg new]
      have known : visited'.contains e = true := by simp [visited', seen]
      have missing : e ∉ fresh ++ b :: rest := by
        simp only [List.mem_append, not_or]
        exact ⟨fun member => by simp [fresh, known] at member, absent⟩
      obtain ⟨front, eq⟩ := ih known unfinished missing
      exact ⟨front, by simpa only [List.append_assoc, List.cons_append] using eq⟩

-----------------------------------------------------------------------------------------
-- The traversal from the entry
-----------------------------------------------------------------------------------------

/-- Nothing has been visited when the traversal starts. -/
theorem traversing_start (g : FlowGraph) : g.Traversing .empty .empty [g.entry] where
  finished_visited := by simp
  visited_pending := by simp
  succs_pending := by simp

/-- The post-order lists exactly the reachable blocks. -/
theorem mem_postOrder {b : g.Block} : b ∈ g.postOrder ↔ g.Reachable b := by
  constructor
  · refine reachable_of_mem_postOrderFrom (fun c member => ?_) b
    rw [List.mem_singleton.mp member]
    exact g.reachable_entry
  · intro reach
    obtain ⟨left, walk⟩ := reach
    obtain ⟨-, ofStack, closed⟩ := g.traversing_start.closes
    simp only [BlockSet.contains_empty, Bool.false_eq_true, false_or] at ofStack closed
    have step {a c : g.Block} {left : List g.Block} (walk : g.Walk a left c)
        (start : a ∈ g.postOrder)
        : c ∈ g.postOrder := by
      induction walk with
      | stay => exact start
      | step edge _ ih => exact ih (closed _ start _ edge)
    exact step walk (ofStack _ (by simp))

/-- The set of reachable blocks has exactly these. -/
@[simp] theorem contains_reachable (b : g.Block)
    : g.reachable.contains b = true ↔ g.Reachable b := by
  rw [reachable, contains_setOf, mem_postOrder]

/-- The reverse post-order starts with the entry and goes on with the other reachable blocks, each
of them once.
-/
theorem reversePostOrder_eq (g : FlowGraph)
    : ∃ rest, g.reversePostOrder = g.entry :: rest ∧ rest.Nodup
        ∧ ∀ b, b ∈ rest ↔ g.Reachable b ∧ b ≠ g.entry := by
  obtain ⟨front, eq⟩ : ∃ front, g.postOrder = front ++ [g.entry] := by
    have absent : g.entry ∉ (g.succs g.entry).filter
        fun s : g.Block => !(BlockSet.empty.insert g.entry).contains s := by
      simp
    rw [postOrder, postOrderFrom, if_neg (by simp)]
    exact postOrderFrom_bottom _ _ _ _ (by simp) (by simp) absent
  have unique : (front ++ [g.entry]).Nodup := eq ▸ (postOrderFrom_nodup _ _ _).1
  obtain ⟨frontUnique, -, separate⟩ := List.nodup_append.mp unique
  refine ⟨front.reverse, by simp [reversePostOrder, eq], List.nodup_reverse.mpr frontUnique, ?_⟩
  intro b
  rw [List.mem_reverse, ← mem_postOrder, eq]
  constructor
  · intro member
    exact ⟨List.mem_append_left _ member, separate b member _ (by simp)⟩
  · intro kept
    obtain ⟨member, other⟩ := kept
    exact (List.mem_append.mp member).resolve_right (by simpa using other)

end FlowGraph

end ThreeAddress
