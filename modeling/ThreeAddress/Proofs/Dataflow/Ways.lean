import ThreeAddress.Proofs.Dataflow.Rounds
import ThreeAddress.Proofs.Graph.Walks

/-! Solutions of problems of united sets, read as statements about walks. An element is at a place
exactly when some walk leads there, or back from there, to a block that gives it or to the boundary,
and all blocks that the walk passes keep the element.
-/

namespace ThreeAddress

namespace Analysis

variable {g : FlowGraph} {α : Type} [Ord α] [Std.TransOrd α] {a : Analysis g (Std.ExtTreeSet α)}
  {x : α} {gives keeps : g.Block → Prop} {rounds : Nat} {b c : g.Block}

/-- What comes to a source of a block goes on to the block if the block keeps it. -/
theorem Arrives.keep (arrives : a.Arrives x rounds c) (source : c ∈ a.sources b)
    (treats : Treats (a.transfer b) x (gives b) (keeps b)) (kept : keeps b)
    : ∃ rounds, a.Arrives x rounds b := by
  rcases treats.of_keeps kept with given | retained
  · exact ⟨1, .given given⟩
  · exact ⟨rounds + 1, .along retained source arrives⟩

/-- What comes from the boundary goes on if the block keeps it. -/
theorem exists_arrives_of_boundary (boundary : a.onBoundary b = true) (member : x ∈ a.boundary)
    (treats : Treats (a.transfer b) x (gives b) (keeps b)) (kept : keeps b)
    : ∃ rounds, a.Arrives x rounds b := by
  rcases treats.of_keeps kept with given | retained
  · exact ⟨1, .given given⟩
  · exact ⟨1, .entered retained boundary member⟩

section Forward

variable (treats : ∀ b, Treats (a.transfer b) x (gives b) (keeps b))
  (forward : a.direction = .forward)

include treats forward

/-- What comes to the bottom of a block comes along walks to the tops of those behind it, by
induction on the way.
-/
theorem Arrives.exists_walk_to (arrives : a.Arrives x rounds c) (edge : b ∈ g.succs c)
    : (∃ d left, g.Walk d (d :: left) b ∧ gives d ∧ ∀ e ∈ left, keeps e)
      ∨ x ∈ a.boundary ∧ ∃ left, g.Walk g.entry left b ∧ ∀ e ∈ left, keeps e := by
  induction arrives generalizing b with
  | @given rounds c given =>
      exact .inl ⟨c, [], .step edge (.stay b), (treats c).adds_iff.mp given, by simp⟩
  | @entered rounds c retained boundary member =>
      obtain rfl : c = g.entry := by simpa [onBoundary, forward] using boundary
      have kept := (treats _).keeps_of_retains retained
      exact .inr ⟨member, [g.entry], .step edge (.stay b), by simpa using kept⟩
  | @along rounds c d retained source arrives ih =>
      have kept := (treats c).keeps_of_retains retained
      have edge' : c ∈ g.succs d := by simpa [sources, forward] using source
      rcases ih edge' with ⟨d, left, walk, given, all⟩ | ⟨member, left, walk, all⟩
      · have all := List.forall_mem_append.mpr ⟨all, List.forall_mem_singleton.mpr kept⟩
        exact .inl ⟨d, left ++ [c], walk.snoc edge, given, all⟩
      · have all := List.forall_mem_append.mpr ⟨all, List.forall_mem_singleton.mpr kept⟩
        exact .inr ⟨member, left ++ [c], walk.snoc edge, all⟩

/-- What comes to the bottom of a block goes along every walk of blocks that keep it, by induction
on the walk.
-/
theorem Arrives.along_walk {d : g.Block} {left : List g.Block} (arrives : a.Arrives x rounds c)
    (edge : d ∈ g.succs c) (walk : g.Walk d left b) (kept : ∀ e ∈ left, keeps e)
    : ∃ p, b ∈ g.succs p ∧ ∃ rounds, a.Arrives x rounds p := by
  induction walk generalizing c rounds with
  | stay b => exact ⟨c, edge, rounds, arrives⟩
  | @step d e b left next rest ih =>
      have source : c ∈ a.sources d := by simpa [sources, forward] using edge
      obtain ⟨rounds, arrives⟩ := arrives.keep source (treats d) (kept d (by simp))
      exact ih arrives next fun e listed => kept e (List.mem_cons_of_mem _ listed)

end Forward

section Backward

variable (treats : ∀ b, Treats (a.transfer b) x (gives b) (keeps b))
  (backward : a.direction = .backward)

include treats backward

/-- What comes to the top of a block comes back along a walk that starts there, by induction on the
way.
-/
theorem Arrives.exists_walk_from (arrives : a.Arrives x rounds b)
    : ∃ left c, g.Walk b left c ∧ (∀ e ∈ left, keeps e)
        ∧ (gives c ∨ keeps c ∧ g.succs c = [] ∧ x ∈ a.boundary) := by
  induction arrives with
  | @given rounds b given =>
      exact ⟨[], b, .stay b, by simp, .inl ((treats b).adds_iff.mp given)⟩
  | @entered rounds b retained boundary member =>
      have last : g.succs b = [] := by simpa [onBoundary, backward] using boundary
      exact ⟨[], b, .stay b, by simp, .inr ⟨(treats b).keeps_of_retains retained, last, member⟩⟩
  | @along rounds b c retained source arrives ih =>
      have edge : c ∈ g.succs b := by simpa [sources, backward] using source
      obtain ⟨left, d, walk, all, start⟩ := ih
      have kept := (treats b).keeps_of_retains retained
      exact ⟨b :: left, d, .step edge walk, List.forall_mem_cons.mpr ⟨kept, all⟩, start⟩

/-- What comes to the top of a block goes back along every walk of blocks that keep it, by induction
on the walk.
-/
theorem Arrives.back_along_walk {left : List g.Block} (arrives : a.Arrives x rounds c)
    (walk : g.Walk b left c) (kept : ∀ e ∈ left, keeps e)
    : ∃ rounds, a.Arrives x rounds b := by
  induction walk with
  | stay c => exact ⟨rounds, arrives⟩
  | @step b d c left edge rest ih =>
      have source : d ∈ a.sources b := by simpa [sources, backward] using edge
      obtain ⟨rounds, arrives⟩ :=
        ih arrives fun e listed => kept e (List.mem_cons_of_mem _ listed)
      exact arrives.keep source (treats b) (kept b (by simp))

end Backward

end Analysis

-----------------------------------------------------------------------------------------
-- Solutions over the graph of a function
-----------------------------------------------------------------------------------------

namespace Cfg

variable {g : Cfg} {α : Type} [Ord α] [Std.TransOrd α] [Std.LawfulEqOrd α]
  {a : Analysis g.toFlowGraph (Std.ExtTreeSet α)} {visits : Nat}
  {solution : Solution g.toFlowGraph (Std.ExtTreeSet α)} {x : α} {gives keeps : g.Block → Prop}

/-- In a solution blocks pass on exactly what comes to them. -/
theorem mem_passedOn_iff_arrives (union : a.IsUnion) (solved : g.solve a visits = .ok solution)
    {b : g.Block}
    : x ∈ a.passedOn solution.toFacts b ↔ ∃ rounds, a.Arrives x rounds b := by
  constructor
  · intro member
    refine (solve_induction
      (fun b facts => x ∈ facts →
        (∃ c ∈ a.sources b, ∃ rounds, a.Arrives x rounds c)
          ∨ a.onBoundary b = true ∧ x ∈ a.boundary)
      (fun b facts => x ∈ facts → ∃ rounds, a.Arrives x rounds b)
      ?bottom ?merge ?transfer solved b).2 member
    case bottom =>
      intro b
      rw [union.bottom]
      exact ⟨fun member => absurd member Std.ExtTreeSet.not_mem_empty,
        fun member => absurd member Std.ExtTreeSet.not_mem_empty⟩
    case merge =>
      intro facts sound b member
      rcases union.mem_merged.mp member with ⟨c, source, passed⟩ | boundary
      · exact .inl ⟨c, source, sound c passed⟩
      · exact .inr boundary
    case transfer =>
      intro b facts sound member
      rcases (union.transfer b).mem_iff.mp member with given | ⟨retained, received⟩
      · exact ⟨1, .given given⟩
      · rcases sound received with ⟨c, source, rounds, arrives⟩ | ⟨boundary, entered⟩
        · exact ⟨rounds + 1, .along retained source arrives⟩
        · exact ⟨1, .entered retained boundary entered⟩
  · rintro ⟨rounds, arrives⟩
    induction arrives with
    | given given =>
        rw [(settled_of_solve solved _).passedOn_eq]
        exact given _
    | entered retained boundary member =>
        rw [(settled_of_solve solved _).passedOn_eq]
        exact (retained _).mpr (union.mem_merged.mpr (.inr ⟨boundary, member⟩))
    | along retained source _ ih =>
        rw [(settled_of_solve solved _).passedOn_eq]
        exact (retained _).mpr (union.mem_merged.mpr (.inl ⟨_, source, ih⟩))

/-- When facts flow forward, an element is at the top of a block exactly when a walk leads there
from a block that gives it, or from the entry if the boundary has it, through blocks that keep it.
-/
theorem mem_top_iff_of_forward (union : a.IsUnion) (forward : a.direction = .forward)
    (treats : ∀ b, Treats (a.transfer b) x (gives b) (keeps b))
    (solved : g.solve a visits = .ok solution) (b : g.Block)
    : x ∈ solution.top.get b
      ↔ (∃ c left, g.Walk c (c :: left) b ∧ gives c ∧ ∀ d ∈ left, keeps d)
        ∨ x ∈ a.boundary ∧ ∃ left, g.Walk g.entry left b ∧ ∀ d ∈ left, keeps d := by
  have received : a.received solution.toFacts b = solution.top.get b := by
    simp only [Analysis.received, forward]
  have sources {c : g.Block} : c ∈ a.sources b ↔ b ∈ g.succs c := by
    simp [Analysis.sources, forward]
  rw [← received, (settled_of_solve solved b).received_eq, union.mem_merged]
  simp only [mem_passedOn_iff_arrives union solved, sources]
  constructor
  · rintro (⟨c, edge, rounds, arrives⟩ | ⟨boundary, member⟩)
    · exact arrives.exists_walk_to treats forward edge
    · obtain rfl : b = g.entry := by simpa [Analysis.onBoundary, forward] using boundary
      exact .inr ⟨member, [], .stay _, by simp⟩
  · rintro (⟨c, left, walk, given, kept⟩ | ⟨member, left, walk, kept⟩)
    · cases walk with
      | step edge rest =>
          have arrives : a.Arrives x 1 c := .given ((treats c).adds_iff.mpr given)
          exact .inl (arrives.along_walk treats forward edge rest kept)
    · have entry : a.onBoundary g.entry = true := by simp [Analysis.onBoundary, forward]
      cases walk with
      | stay => exact .inr ⟨entry, member⟩
      | step edge rest =>
          obtain ⟨rounds, arrives⟩ := Analysis.exists_arrives_of_boundary entry member
            (treats g.entry) (kept g.entry (by simp))
          exact .inl (arrives.along_walk treats forward edge rest fun d listed =>
            kept d (List.mem_cons_of_mem _ listed))

/-- When facts flow backward, an element is at the top of a block exactly when a walk leads from
there to a block that gives it, or to one without successors if the boundary has it, through blocks
that keep it.
-/
theorem mem_top_iff_of_backward (union : a.IsUnion) (backward : a.direction = .backward)
    (treats : ∀ b, Treats (a.transfer b) x (gives b) (keeps b))
    (solved : g.solve a visits = .ok solution) (b : g.Block)
    : x ∈ solution.top.get b
      ↔ ∃ left c, g.Walk b left c ∧ (∀ d ∈ left, keeps d)
          ∧ (gives c ∨ keeps c ∧ g.succs c = [] ∧ x ∈ a.boundary) := by
  have passedOn : a.passedOn solution.toFacts b = solution.top.get b := by
    simp only [Analysis.passedOn, backward]
  rw [← passedOn, mem_passedOn_iff_arrives union solved]
  constructor
  · rintro ⟨rounds, arrives⟩
    exact arrives.exists_walk_from treats backward
  · rintro ⟨left, c, walk, kept, given | ⟨keptHere, last, member⟩⟩
    · have arrives : a.Arrives x 1 c := .given ((treats c).adds_iff.mpr given)
      exact arrives.back_along_walk treats backward walk kept
    · have boundary : a.onBoundary c = true := by simp [Analysis.onBoundary, backward, last]
      obtain ⟨rounds, arrives⟩ :=
        Analysis.exists_arrives_of_boundary boundary member (treats c) keptHere
      exact arrives.back_along_walk treats backward walk kept

end Cfg

end ThreeAddress
