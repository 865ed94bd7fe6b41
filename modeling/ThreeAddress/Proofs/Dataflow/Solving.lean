import ThreeAddress.Dataflow.Solver
import ThreeAddress.Proofs.Graph.Traversal

/-! What the solver ends with: facts that another round would not change, and that hold nothing but
what merging and transferring the first facts gives.
-/

namespace ThreeAddress

namespace Analysis

variable {g : FlowGraph} {D : Type} {a : Analysis g D}

-----------------------------------------------------------------------------------------
-- Facts at one block
-----------------------------------------------------------------------------------------

/-- Facts flow from one block to another exactly when the other depends on the one. -/
theorem mem_sources {b c : g.Block} : c ∈ a.sources b ↔ b ∈ a.dependents c := by
  cases flow : a.direction <;> simp [sources, dependents, flow]

theorem received_record (facts : Facts g D) (b c : g.Block) (received passedOn : D)
    : a.received (a.record facts b received passedOn) c
      = if b = c then received else a.received facts c := by
  cases flow : a.direction <;> simp [Analysis.received, record, flow]

theorem passedOn_record (facts : Facts g D) (b c : g.Block) (received passedOn : D)
    : a.passedOn (a.record facts b received passedOn) c
      = if b = c then passedOn else a.passedOn facts c := by
  cases flow : a.direction <;> simp [Analysis.passedOn, record, flow]

/-- What a block receives depends on what its sources pass on only. -/
theorem merged_congr {facts facts' : Facts g D} {b : g.Block}
    (same : ∀ c ∈ a.sources b, a.passedOn facts' c = a.passedOn facts c)
    : a.merged facts' b = a.merged facts b := by
  rw [merged, merged, List.map_congr_left same]

/-- Both facts of a block are what its sources give. -/
structure Settled (a : Analysis g D) (facts : Facts g D) (b : g.Block) : Prop where
  received_eq : a.received facts b = a.merged facts b
  passedOn_eq : a.passedOn facts b = a.transfer b (a.merged facts b)

/-- A settled block stays so while the facts it depends on and its own stay. -/
theorem Settled.congr {facts facts' : Facts g D} {b : g.Block} (settled : a.Settled facts b)
    (received : a.received facts' b = a.received facts b)
    (passedOn : a.passedOn facts' b = a.passedOn facts b)
    (same : ∀ c ∈ a.sources b, a.passedOn facts' c = a.passedOn facts c)
    : a.Settled facts' b where
  received_eq := by rw [received, merged_congr same, settled.received_eq]
  passedOn_eq := by rw [passedOn, merged_congr same, settled.passedOn_eq]

-----------------------------------------------------------------------------------------
-- The queue
-----------------------------------------------------------------------------------------

/-- Nothing is lost in a queue, by induction on the blocks that join it. -/
theorem mem_enqueue {α : Type} [DecidableEq α] {queue blocks : List α} {b : α}
    : b ∈ enqueue queue blocks ↔ b ∈ queue ∨ b ∈ blocks := by
  unfold enqueue
  induction blocks generalizing queue with
  | nil => simp
  | cons c rest ih =>
      rw [List.foldl_cons, ih, List.mem_cons, ← or_assoc]
      apply or_congr_left
      split
      · next waiting =>
          refine ⟨.inl, fun either => either.elim id fun same => ?_⟩
          simpa [same] using waiting
      · simp

/-- Every block is visited at first. -/
theorem mem_firstVisits (b : g.Block) : b ∈ a.firstVisits := by
  have listed : b ∈ g.reversePostOrder ++ g.blocks.filter
      fun b : g.Block => !g.reachable.contains b := by
    simp only [List.mem_append, List.mem_filter, FlowGraph.mem_blocks, true_and,
      FlowGraph.reversePostOrder, List.mem_reverse, FlowGraph.mem_postOrder,
      ← FlowGraph.contains_reachable]
    cases g.reachable.contains b <;> simp
  cases flow : a.direction with
  | forward => simpa only [firstVisits, flow] using listed
  | backward => simpa only [firstVisits, flow, List.mem_reverse] using listed

variable [DecidableEq D]

/-- A visit settles its block, and leaves every other block settled that will not be visited again:
when the block passes on something new, all that depends on it joins the queue.
-/
theorem settled_visit {solution : Solution g D} {b : g.Block} {rest : List g.Block}
    (before : ∀ c, c ∉ b :: rest → a.Settled solution.toFacts c)
    : let next := a.visit solution b
      let changed := a.passedOn next.toFacts b != a.passedOn solution.toFacts b
      ∀ c, c ∉ (if changed then enqueue rest (a.dependents b) else rest) →
        a.Settled next.toFacts c := by
  intro next changed c waiting
  have received (c : g.Block) : a.received next.toFacts c
      = if b = c then a.merged solution.toFacts b else a.received solution.toFacts c :=
    received_record ..
  have passedOn (c : g.Block) : a.passedOn next.toFacts c
      = if b = c then a.transfer b (a.merged solution.toFacts b)
        else a.passedOn solution.toFacts c :=
    passedOn_record ..
  -- No source of the block has changed: that would have put the block into the queue.
  have still : ∀ d ∈ a.sources c, a.passedOn next.toFacts d = a.passedOn solution.toFacts d := by
    intro d source
    by_cases own : b = d
    · subst own
      by_contra other
      have differs : changed = true := by simpa [changed] using other
      rw [if_pos differs, mem_enqueue, not_or] at waiting
      exact waiting.2 (mem_sources.mp source)
    · rw [passedOn, if_neg own]
  have merged : a.merged next.toFacts c = a.merged solution.toFacts c := merged_congr still
  by_cases own : b = c
  · subst own
    exact ⟨by rw [received, if_pos rfl, merged], by rw [passedOn, if_pos rfl, merged]⟩
  · refine (before c ?_).congr (by rw [received, if_neg own]) (by rw [passedOn, if_neg own]) still
    rw [List.mem_cons, not_or]
    refine ⟨Ne.symm own, fun listed => waiting ?_⟩
    split
    · exact mem_enqueue.mpr (.inl listed)
    · exact listed

/-- When the queue is empty all blocks are settled, by induction on the visits. -/
theorem settled_of_run {budget : Nat} {solution final : Solution g D} {queue : List g.Block}
    (ok : a.run budget solution queue = .ok final)
    (before : ∀ c, c ∉ queue → a.Settled solution.toFacts c)
    : ∀ c, a.Settled final.toFacts c := by
  induction budget generalizing solution queue with
  | zero =>
      cases queue with
      | nil =>
          obtain rfl := Except.ok.inj ok
          exact fun c => before c List.not_mem_nil
      | cons b rest => cases ok
  | succ budget ih =>
      cases queue with
      | nil =>
          obtain rfl := Except.ok.inj ok
          exact fun c => before c List.not_mem_nil
      | cons b rest => exact ih ok (settled_visit before)

/-- A fact that holds of all merged and transferred facts holds of what the solver ends with, by
induction on the visits.
-/
theorem run_induction {receives passes : g.Block → D → Prop}
    (merge
      : ∀ facts : Facts g D, (∀ b, passes b (a.passedOn facts b)) → ∀ b,
          receives b (a.merged facts b))
    (transfer : ∀ b fact, receives b fact → passes b (a.transfer b fact))
    {budget : Nat} {solution final : Solution g D} {queue : List g.Block}
    (ok : a.run budget solution queue = .ok final)
    (before
      : ∀ b, receives b (a.received solution.toFacts b) ∧ passes b (a.passedOn solution.toFacts b))
    : ∀ b, receives b (a.received final.toFacts b) ∧ passes b (a.passedOn final.toFacts b) := by
  induction budget generalizing solution queue with
  | zero =>
      cases queue with
      | nil => exact Except.ok.inj ok ▸ before
      | cons b rest => cases ok
  | succ budget ih =>
      cases queue with
      | nil => exact Except.ok.inj ok ▸ before
      | cons b rest =>
          refine ih ok fun c => ?_
          have fact := merge solution.toFacts (fun d => (before d).2) b
          rw [visit, received_record, passedOn_record]
          split
          · next own => exact own ▸ ⟨fact, transfer b _ fact⟩
          · exact before c

end Analysis

-----------------------------------------------------------------------------------------
-- Solutions over the graph of a function
-----------------------------------------------------------------------------------------

namespace Cfg

variable {g : Cfg} {D : Type} [DecidableEq D] {a : Analysis g.toFlowGraph D} {visits : Nat}
  {solution : Solution g.toFlowGraph D}

theorem solveWithin_of_solve (solved : g.solve a visits = .ok solution)
    : a.solveWithin (visits * g.size) = .ok solution := by
  have unmapped {error : g.Block → AnalysisError}
      {result : Except g.Block (Solution g.toFlowGraph D)}
      (mapped : result.mapError error = .ok solution)
      : result = .ok solution := by
    cases result with
    | error b => cases mapped
    | ok found => exact congrArg Except.ok (Except.ok.inj mapped)
  exact unmapped solved

/-- All blocks are settled in a solution. -/
theorem settled_of_solve (solved : g.solve a visits = .ok solution) (b : g.Block)
    : a.Settled solution.toFacts b :=
  Analysis.settled_of_run (solveWithin_of_solve solved)
    (fun c outside => absurd (Analysis.mem_firstVisits c) outside) b

/-- A solution holds nothing but what merging and transferring lead to from the bottom facts. -/
theorem solve_induction (receives passes : g.Block → D → Prop)
    (bottom : ∀ b, receives b a.bottom ∧ passes b a.bottom)
    (merge
      : ∀ facts : Facts g.toFlowGraph D, (∀ b, passes b (a.passedOn facts b)) → ∀ b,
          receives b (a.merged facts b))
    (transfer : ∀ b fact, receives b fact → passes b (a.transfer b fact))
    (solved : g.solve a visits = .ok solution)
    : ∀ b, receives b (a.received solution.toFacts b)
        ∧ passes b (a.passedOn solution.toFacts b) := by
  refine Analysis.run_induction merge transfer (solveWithin_of_solve solved) fun b => ?_
  have blank : (Vector.replicate g.size a.bottom).get b = a.bottom :=
    Vector.getElem_replicate b.isLt
  cases flow : a.direction <;>
    simpa only [Analysis.received, Analysis.passedOn, Analysis.initial, flow, blank] using bottom b

end Cfg

end ThreeAddress
