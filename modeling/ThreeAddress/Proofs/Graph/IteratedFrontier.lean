import ThreeAddress.Proofs.Graph.Frontiers
import ThreeAddress.Ssa.PhiPlacement

/-! The worklist of phi placement closes a set of blocks under taking frontiers. -/

namespace ThreeAddress.FlowGraph

variable {g : FlowGraph}

/-- What holds between the sets and the worklist of a closure: blocks found have been queued, and a
queued block is still on the worklist or has its frontier found.
-/
structure Closing (g : FlowGraph) (frontiers : BlockTable g) (found queued : BlockSet)
    (worklist : List g.Block)
    : Prop where
  found_queued : ∀ b : g.Block, found.contains b = true → queued.contains b = true
  queued_pending
    : ∀ b : g.Block, queued.contains b = true
        → b ∈ worklist
          ∨ ∀ c : g.Block, (frontiers.get b).contains c = true → found.contains c = true

/-- Taking a block off the worklist keeps the invariant: its frontier is found from now on, and what
is new in it joins the worklist.
-/
theorem Closing.advance {frontiers : BlockTable g} {found queued : BlockSet} {b : g.Block}
    {rest : List g.Block} (inv : g.Closing frontiers found queued (b :: rest))
    : let fresh := (frontiers.get b).diff found
      g.Closing frontiers (found.union fresh) (queued.union fresh)
        ((g.members (fresh.diff queued)).reverse ++ rest) where
  found_queued := by
    intro c member
    simp only [BlockSet.contains_union, Bool.or_eq_true] at member ⊢
    exact member.imp_left (inv.found_queued c)
  queued_pending := by
    intro c member
    have wider (d : g.Block) (old : found.contains d = true)
        : (found.union ((frontiers.get b).diff found)).contains d = true := by
      simp [old]
    by_cases old : queued.contains c = true
    · rcases inv.queued_pending c old with listed | done
      · rcases List.mem_cons.mp listed with rfl | listed
        · refine .inr fun d inFrontier => ?_
          cases known : found.contains d <;> simp [inFrontier, known]
        · exact .inl (List.mem_append_right _ listed)
      · exact .inr fun d inFrontier => wider d (done d inFrontier)
    · refine .inl (List.mem_append_left _ ?_)
      simpa [old] using member

/-- What a closure finds contains what was found before and the frontiers of all blocks that were
queued or are found. By induction on the closure.
-/
theorem Closing.closes {frontiers : BlockTable g} {found queued : BlockSet}
    {worklist : List g.Block} (inv : g.Closing frontiers found queued worklist)
    : let final := g.closeUnder frontiers found queued worklist
      (∀ b : g.Block, found.contains b = true → final.contains b = true)
        ∧ ∀ b : g.Block, queued.contains b = true ∨ final.contains b = true
          → ∀ c : g.Block, (frontiers.get b).contains c = true → final.contains c = true := by
  fun_induction g.closeUnder frontiers found queued worklist with
  | case1 found queued =>
      refine ⟨fun _ member => member, fun b member => ?_⟩
      have known : queued.contains b = true := member.elim id (inv.found_queued b)
      exact (inv.queued_pending b known).resolve_left List.not_mem_nil
  | case2 found queued b rest fresh ih =>
      obtain ⟨wider, closed⟩ := ih inv.advance
      refine ⟨fun c member => wider c (by simp [member]), fun c member => closed c ?_⟩
      exact member.imp_left fun old => by simp [old]

/-- A closure finds nothing but what the frontiers of its worklist lead to, by induction on the
closure.
-/
theorem closeUnder_induction {frontiers : BlockTable g} {P : g.Block → Prop}
    {found queued : BlockSet} {worklist : List g.Block}
    (start : ∀ b : g.Block, found.contains b = true → P b)
    (listed : ∀ b ∈ worklist, ∀ c : g.Block, (frontiers.get b).contains c = true → P c)
    (step : ∀ b, P b → ∀ c : g.Block, (frontiers.get b).contains c = true → P c)
    : ∀ b : g.Block, (g.closeUnder frontiers found queued worklist).contains b = true → P b := by
  fun_induction g.closeUnder frontiers found queued worklist with
  | case1 => exact start
  | case2 found queued b rest fresh ih =>
      have new (c : g.Block) (member : fresh.contains c = true) : P c := by
        simp only [fresh, BlockSet.contains_diff, Bool.and_eq_true] at member
        exact listed b (by simp) c member.1
      apply ih
      · intro c member
        simp only [BlockSet.contains_union, Bool.or_eq_true] at member
        exact member.elim (start c) (new c)
      · intro c member
        rcases List.mem_append.mp member with queuedNow | member
        · simp only [List.mem_reverse, mem_members, BlockSet.contains_diff, Bool.and_eq_true]
            at queuedNow
          exact step c (new c queuedNow.1)
        · exact listed c (List.mem_cons_of_mem _ member)

/-- The frontier of a starting block, and of every block of the iterated frontier, is in the
iterated frontier.
-/
theorem frontier_subset_iteratedFrontier {frontiers : BlockTable g} {start : BlockSet}
    {b c : g.Block}
    (source : start.contains b = true ∨ (g.iteratedFrontier frontiers start).contains b = true)
    (member : (frontiers.get b).contains c = true)
    : (g.iteratedFrontier frontiers start).contains c = true := by
  have inv : g.Closing frontiers .empty start (g.members start).reverse :=
    ⟨by simp, fun b queued => .inl (by simpa using queued)⟩
  exact inv.closes.2 b source c member

/-- The iterated frontier is in every set that has the frontiers of the starting blocks and of its
own members.
-/
theorem iteratedFrontier_induction {frontiers : BlockTable g} {start : BlockSet}
    {P : g.Block → Prop}
    (base
      : ∀ b : g.Block, start.contains b = true
          → ∀ c : g.Block, (frontiers.get b).contains c = true → P c)
    (step : ∀ b, P b → ∀ c : g.Block, (frontiers.get b).contains c = true → P c)
    : ∀ b : g.Block, (g.iteratedFrontier frontiers start).contains b = true → P b := by
  refine closeUnder_induction (by simp) (fun b listed => base b ?_) step
  simpa using listed

end ThreeAddress.FlowGraph
