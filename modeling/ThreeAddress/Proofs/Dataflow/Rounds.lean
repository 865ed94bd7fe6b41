import Mathlib.Data.Fintype.Card
import ThreeAddress.Proofs.Dataflow.ReachingDefinitions

/-! How long it takes to solve a problem of sets that are united where edges meet. The visits fall
into rounds, in each of which every waiting block is visited once. A member moves on along one edge
at least in each round, and a way without repetitions has fewer edges than there are blocks.
-/

namespace ThreeAddress

-----------------------------------------------------------------------------------------
-- Changes of sets
-----------------------------------------------------------------------------------------

section Changes

variable {α : Type} [Ord α] [Std.TransOrd α]

/-- The element is in the set afterwards, whatever was in it before. -/
def Adds (change : Std.ExtTreeSet α → Std.ExtTreeSet α) (x : α) : Prop :=
  ∀ set, x ∈ change set

/-- The element is in the set afterwards exactly if it was before. -/
def Retains (change : Std.ExtTreeSet α → Std.ExtTreeSet α) (x : α) : Prop :=
  ∀ set, x ∈ change set ↔ x ∈ set

/-- What becomes of an element does not depend on the others: it is given, kept or dropped. -/
def Separable (change : Std.ExtTreeSet α → Std.ExtTreeSet α) : Prop :=
  ∀ x, Adds change x ∨ Retains change x ∨ ∀ set, x ∉ change set

variable {change : Std.ExtTreeSet α → Std.ExtTreeSet α}

theorem Separable.mem_iff (separable : Separable change) {set : Std.ExtTreeSet α} {x : α}
    : x ∈ change set ↔ Adds change x ∨ Retains change x ∧ x ∈ set := by
  constructor
  · intro member
    rcases separable x with given | kept | dropped
    · exact .inl given
    · exact .inr ⟨kept, (kept set).mp member⟩
    · exact absurd member (dropped set)
  · rintro (given | ⟨kept, member⟩)
    · exact given set
    · exact (kept set).mpr member

/-- Whatever the set, the element is in it afterwards if the change gives it, or if it was in the
set before and the change keeps it.
-/
def Treats (change : Std.ExtTreeSet α → Std.ExtTreeSet α) (x : α) (gives keeps : Prop) : Prop :=
  ∀ set, x ∈ change set ↔ gives ∨ keeps ∧ x ∈ set

variable {x : α} {gives keeps : Prop}

theorem Treats.adds_iff (treats : Treats change x gives keeps) : Adds change x ↔ gives := by
  refine ⟨fun added => ?_, fun given set => (treats set).mpr (.inl given)⟩
  exact ((treats ∅).mp (added ∅)).resolve_right fun kept =>
    Std.ExtTreeSet.not_mem_empty kept.2

/-- An element that is kept is not lost, and it may be given as well. -/
theorem Treats.of_keeps (treats : Treats change x gives keeps) (kept : keeps)
    : Adds change x ∨ Retains change x := by
  by_cases given : gives
  · exact .inl (treats.adds_iff.mpr given)
  · exact .inr fun set => (treats set).trans (by simp [given, kept])

theorem Treats.keeps_of_retains (treats : Treats change x gives keeps) (kept : Retains change x)
    : keeps := by
  have notGiven : ¬ gives := fun given =>
    Std.ExtTreeSet.not_mem_empty ((kept ∅).mp ((treats ∅).mpr (.inl given)))
  have single : x ∈ (∅ : Std.ExtTreeSet α).insert x := Std.ExtTreeSet.mem_insert_self
  exact (((treats _).mp ((kept _).mpr single)).resolve_left notGiven).1

/-- A change is separable if it treats every element by itself. -/
theorem separable_of_treats {gives keeps : α → Prop}
    (treats : ∀ x, Treats change x (gives x) (keeps x))
    : Separable change := by
  intro x
  by_cases kept : keeps x
  · exact ((treats x).of_keeps kept).imp_right .inl
  · by_cases given : gives x
    · exact .inl ((treats x).adds_iff.mpr given)
    · exact .inr (.inr fun set member => ((treats x set).mp member).elim given fun old => kept old.1)

end Changes

-----------------------------------------------------------------------------------------
-- The queue
-----------------------------------------------------------------------------------------

/-- Blocks join a queue behind those that wait, and each only once. -/
theorem exists_enqueue_eq {β : Type} [DecidableEq β] {queue : List β} (nodup : queue.Nodup)
    (blocks : List β)
    : ∃ joined, enqueue queue blocks = queue ++ joined ∧ (queue ++ joined).Nodup := by
  unfold enqueue
  induction blocks generalizing queue with
  | nil => exact ⟨[], by simp, by simpa using nodup⟩
  | cons b rest ih =>
      rw [List.foldl_cons]
      split
      · exact ih nodup
      · next absent =>
          have fresh : b ∉ queue := by simpa using absent
          obtain ⟨joined, whole, nodup'⟩ := ih (nodup.concat fresh)
          rw [List.concat_eq_append, List.append_assoc] at whole nodup'
          exact ⟨[b] ++ joined, whole, nodup'⟩

namespace Analysis

section Queue

variable {g : FlowGraph} {D : Type} {a : Analysis g D}

/-- Every block is visited once at first. -/
theorem nodup_firstVisits (a : Analysis g D) : a.firstVisits.Nodup := by
  have reached : g.reversePostOrder.Nodup :=
    List.nodup_reverse.mpr (FlowGraph.postOrderFrom_nodup _ _ _).1
  have others : (g.blocks.filter fun b : g.Block => !g.reachable.contains b).Nodup :=
    (List.nodup_finRange _).filter _
  have order := reached.append others fun b listed other => by
    rw [FlowGraph.reversePostOrder, List.mem_reverse, FlowGraph.mem_postOrder,
      ← FlowGraph.contains_reachable] at listed
    simp [listed] at other
  cases flow : a.direction with
  | forward => simpa only [firstVisits, flow] using order
  | backward => simpa only [firstVisits, flow, List.nodup_reverse] using order

variable [DecidableEq D]

/-- The queue behind a visit. -/
def waiting (a : Analysis g D) (solution : Solution g D) (b : g.Block) (rest : List g.Block)
    : List g.Block :=
  if a.passedOn (a.visit solution b).toFacts b != a.passedOn solution.toFacts b then
    enqueue rest (a.dependents b)
  else rest

/-- Where no visit changes what a block passes on, the queue runs empty, by induction on it. -/
theorem exists_run_eq_ok {solution : Solution g D} {queue : List g.Block}
    (steady : ∀ b, a.transfer b (a.merged solution.toFacts b) = a.passedOn solution.toFacts b)
    {budget : Nat} (enough : queue.length ≤ budget)
    : ∃ final, a.run budget solution queue = .ok final := by
  induction queue generalizing budget solution with
  | nil => exact ⟨solution, by cases budget <;> rfl⟩
  | cons b rest ih =>
      obtain ⟨budget, rfl⟩ := Nat.exists_eq_add_of_le' (Nat.one_le_of_lt enough)
      have same (c : g.Block)
          : a.passedOn (a.visit solution b).toFacts c = a.passedOn solution.toFacts c := by
        have passedOn : a.passedOn (a.visit solution b).toFacts c
            = if b = c then a.transfer b (a.merged solution.toFacts b)
              else a.passedOn solution.toFacts c :=
          passedOn_record ..
        rw [passedOn]
        split
        · next own => exact own ▸ steady b
        · rfl
      have unchanged
          : (a.passedOn (a.visit solution b).toFacts b != a.passedOn solution.toFacts b)
            = false := by
        simp [same b]
      rw [run]
      simp only [unchanged, Bool.false_eq_true, if_false]
      refine ih (fun c => ?_) (Nat.le_of_succ_le_succ enough)
      rw [merged_congr fun d _ => same d, same c, steady c]

end Queue

-----------------------------------------------------------------------------------------
-- Problems of sets
-----------------------------------------------------------------------------------------

variable {g : FlowGraph} {α : Type} [Ord α] [Std.TransOrd α]

/-- Sets are united where edges meet, and in blocks elements do not depend on each other. -/
structure IsUnion (a : Analysis g (Std.ExtTreeSet α)) : Prop where
  bottom : a.bottom = ∅
  merge : a.merge = unionAll
  transfer : ∀ b, Separable (a.transfer b)

variable {a : Analysis g (Std.ExtTreeSet α)}

/-- A block receives what its sources pass on and what comes from the boundary. -/
theorem IsUnion.mem_merged (union : a.IsUnion) {facts : Facts g (Std.ExtTreeSet α)} {b : g.Block}
    {x : α}
    : x ∈ a.merged facts b
      ↔ (∃ c ∈ a.sources b, x ∈ a.passedOn facts c) ∨ a.onBoundary b = true ∧ x ∈ a.boundary := by
  rw [merged, union.merge, mem_unionAll]
  simp only [List.mem_append, or_and_right, exists_or, List.mem_map, exists_exists_and_eq_and]
  apply or_congr_right
  cases a.onBoundary b <;> simp

-----------------------------------------------------------------------------------------
-- Ways of an element
-----------------------------------------------------------------------------------------

/-- An element comes to the far side of a block within a number of rounds: it is given there, or it
is kept when it comes from the boundary, or from a source that it comes to within one round less.
-/
inductive Arrives (a : Analysis g (Std.ExtTreeSet α)) (x : α) : Nat → g.Block → Prop where
  | given {rounds : Nat} {b : g.Block} : Adds (a.transfer b) x → Arrives a x (rounds + 1) b
  | entered {rounds : Nat} {b : g.Block}
    : Retains (a.transfer b) x → a.onBoundary b = true → x ∈ a.boundary →
      Arrives a x (rounds + 1) b
  | along {rounds : Nat} {b c : g.Block}
    : Retains (a.transfer b) x → c ∈ a.sources b → Arrives a x rounds c → Arrives a x (rounds + 1) b

variable {x : α} {rounds : Nat} {b : g.Block}

theorem Arrives.mono (arrives : a.Arrives x rounds b) {rounds' : Nat} (more : rounds ≤ rounds')
    : a.Arrives x rounds' b := by
  induction arrives generalizing rounds' with
  | given gives =>
      obtain ⟨rounds', rfl⟩ := Nat.exists_eq_add_of_lt (Nat.lt_of_succ_le more)
      exact .given gives
  | entered keeps boundary member =>
      obtain ⟨rounds', rfl⟩ := Nat.exists_eq_add_of_lt (Nat.lt_of_succ_le more)
      exact .entered keeps boundary member
  | along keeps source _ ih =>
      obtain ⟨rounds', rfl⟩ := Nat.exists_eq_add_of_le' (Nat.one_le_of_lt more)
      exact .along keeps source (ih (Nat.le_of_succ_le_succ more))

/-- When a block is visited, it passes on what comes to it within one more round than to its
sources.
-/
theorem IsUnion.mem_transfer (union : a.IsUnion) {facts : Facts g (Std.ExtTreeSet α)}
    (reached : ∀ c, a.Arrives x rounds c → x ∈ a.passedOn facts c)
    (arrives : a.Arrives x (rounds + 1) b)
    : x ∈ a.transfer b (a.merged facts b) := by
  rw [(union.transfer b).mem_iff, union.mem_merged]
  cases arrives with
  | given gives => exact .inl gives
  | entered keeps boundary member => exact .inr ⟨keeps, .inr ⟨boundary, member⟩⟩
  | along keeps source arrives => exact .inr ⟨keeps, .inl ⟨_, source, reached _ arrives⟩⟩

/-- When a block is visited, it passes on nothing but what comes to it within some rounds. -/
theorem IsUnion.arrives_of_mem_transfer (union : a.IsUnion) {facts : Facts g (Std.ExtTreeSet α)}
    (sound : ∀ c, x ∈ a.passedOn facts c → ∃ rounds, a.Arrives x rounds c)
    (member : x ∈ a.transfer b (a.merged facts b))
    : ∃ rounds, a.Arrives x rounds b := by
  rw [(union.transfer b).mem_iff, union.mem_merged] at member
  rcases member with gives | ⟨keeps, ⟨c, source, member⟩ | ⟨boundary, member⟩⟩
  · exact ⟨1, .given gives⟩
  · obtain ⟨rounds, arrives⟩ := sound c member
    exact ⟨rounds + 1, .along keeps source arrives⟩
  · exact ⟨1, .entered keeps boundary member⟩

/-- The number of rounds is the least within which the element comes to the block. -/
def FirstArrives (a : Analysis g (Std.ExtTreeSet α)) (x : α) (rounds : Nat) (b : g.Block) : Prop :=
  a.Arrives x rounds b ∧ ∀ less < rounds, ¬ a.Arrives x less b

/-- On its way to a block that it comes to no sooner, an element meets a new block in each round. By
induction on the rounds: the source it comes from is met one round before.
-/
theorem FirstArrives.exists_blocks (first : a.FirstArrives x rounds b)
    : ∃ blocks : List g.Block, blocks.Nodup ∧ blocks.length = rounds
        ∧ ∀ c ∈ blocks, ∃ before ≤ rounds, a.FirstArrives x before c := by
  obtain ⟨arrives, least⟩ := first
  induction arrives with
  | @given rounds b gives =>
      obtain rfl : rounds = 0 := by
        by_contra positive
        exact least 1 (by omega) (.given gives)
      exact ⟨[b], List.nodup_singleton b, rfl, fun c member =>
        List.mem_singleton.mp member ▸ ⟨1, le_rfl, .given gives, least⟩⟩
  | @entered rounds b keeps boundary member =>
      obtain rfl : rounds = 0 := by
        by_contra positive
        exact least 1 (by omega) (.entered keeps boundary member)
      exact ⟨[b], List.nodup_singleton b, rfl, fun c listed =>
        List.mem_singleton.mp listed ▸ ⟨1, le_rfl, .entered keeps boundary member, least⟩⟩
  | @along rounds b c keeps source arrives ih =>
      have first : a.FirstArrives x rounds c :=
        ⟨arrives, fun less fewer sooner =>
          least (less + 1) (Nat.succ_lt_succ fewer) (.along keeps source sooner)⟩
      obtain ⟨blocks, nodup, length, known⟩ := ih first.2
      refine ⟨b :: blocks, List.nodup_cons.mpr ⟨fun listed => ?_, nodup⟩, by simp [length], ?_⟩
      · obtain ⟨before, fewer, arrives, -⟩ := known b listed
        exact least before (Nat.lt_succ_of_le fewer) arrives
      · intro d listed
        rcases List.mem_cons.mp listed with rfl | listed
        · exact ⟨rounds + 1, le_rfl, .along keeps source arrives, least⟩
        · obtain ⟨before, fewer, first⟩ := known d listed
          exact ⟨before, Nat.le_succ_of_le fewer, first⟩

/-- As many rounds as there are blocks are enough. -/
theorem Arrives.within_size (arrives : a.Arrives x rounds b) : a.Arrives x g.size b := by
  classical
  have some : ∃ rounds, a.Arrives x rounds b := ⟨rounds, arrives⟩
  have first : a.FirstArrives x (Nat.find some) b :=
    ⟨Nat.find_spec some, fun _ fewer => Nat.find_min some fewer⟩
  obtain ⟨blocks, nodup, length, -⟩ := first.exists_blocks
  have bound := nodup.length_le_card
  rw [length, Fintype.card_fin] at bound
  exact first.1.mono bound

-----------------------------------------------------------------------------------------
-- Rounds
-----------------------------------------------------------------------------------------

/-- A round of visits after a number of rounds: the blocks that have yet to be visited in it, and
behind them those that joined the queue in it. The blocks pass on what comes to them within the
rounds that are over, and within this one if they need no visit in it.
-/
structure InRound (a : Analysis g (Std.ExtTreeSet α)) (rounds : Nat)
    (solution : Solution g (Std.ExtTreeSet α)) (current joined : List g.Block)
    : Prop where
  nodup : (current ++ joined).Nodup
  settled : ∀ b, b ∉ current ++ joined → a.Settled solution.toFacts b
  reached : ∀ b x, a.Arrives x rounds b → x ∈ a.passedOn solution.toFacts b
  ahead : ∀ b, b ∉ current → ∀ x, a.Arrives x (rounds + 1) b → x ∈ a.passedOn solution.toFacts b
  sound : ∀ b x, x ∈ a.passedOn solution.toFacts b → ∃ rounds, a.Arrives x rounds b

variable {solution : Solution g (Std.ExtTreeSet α)} {current joined queue : List g.Block}

/-- Nothing has come to any block when the first round starts. -/
theorem IsUnion.inRound_start (union : a.IsUnion)
    : a.InRound 0 { toFacts := a.initial, visits := 0 } a.firstVisits [] where
  nodup := by simpa using a.nodup_firstVisits
  settled b absent := absurd (List.mem_append_left _ (mem_firstVisits b)) absent
  reached b x arrives := nomatch arrives
  ahead b absent := absurd (mem_firstVisits b) absent
  sound b x member := by
    have blank : a.passedOn a.initial b = a.bottom := by
      cases flow : a.direction <;> simp only [passedOn, initial, flow] <;>
        exact Vector.getElem_replicate b.isLt
    rw [blank, union.bottom] at member
    exact absurd member Std.ExtTreeSet.not_mem_empty

/-- When all blocks of a round have been visited, those that joined the queue make up the next one.
The others need no visit in it, as they are settled.
-/
theorem IsUnion.inRound_next (union : a.IsUnion) (inRound : a.InRound rounds solution [] queue)
    : a.InRound (rounds + 1) solution queue [] where
  nodup := by simpa using inRound.nodup
  settled b absent := inRound.settled b (by simpa using absent)
  reached b := inRound.ahead b List.not_mem_nil
  ahead b absent x arrives := by
    rw [(inRound.settled b absent).passedOn_eq]
    exact union.mem_transfer (fun c => inRound.ahead c List.not_mem_nil x) arrives
  sound := inRound.sound

variable [DecidableEq (Std.ExtTreeSet α)]

/-- A visit is a step within its round. -/
theorem IsUnion.inRound_visit (union : a.IsUnion)
    (inRound : a.InRound rounds solution (b :: current) joined)
    : ∃ joined', a.waiting solution b (current ++ joined) = current ++ joined'
        ∧ a.InRound rounds (a.visit solution b) current joined' := by
  have nodup := inRound.nodup
  rw [List.cons_append] at nodup
  obtain ⟨joined', whole, nodup'⟩
      : ∃ joined', a.waiting solution b (current ++ joined) = current ++ joined'
          ∧ (current ++ joined').Nodup := by
    unfold waiting
    split
    · obtain ⟨more, whole, nodup'⟩ := exists_enqueue_eq nodup.of_cons (a.dependents b)
      rw [List.append_assoc] at whole nodup'
      exact ⟨joined ++ more, whole, nodup'⟩
    · exact ⟨joined, rfl, nodup.of_cons⟩
  have passedOn (c : g.Block) : a.passedOn (a.visit solution b).toFacts c
      = if b = c then a.transfer b (a.merged solution.toFacts b)
        else a.passedOn solution.toFacts c :=
    passedOn_record ..
  have forward {x : α} (arrives : a.Arrives x (rounds + 1) b)
      : x ∈ a.transfer b (a.merged solution.toFacts b) :=
    union.mem_transfer (fun c => inRound.reached c x) arrives
  refine ⟨joined', whole, nodup', ?settled, ?reached, ?ahead, ?sound⟩
  case settled =>
    rw [← whole]
    exact settled_visit inRound.settled
  case reached =>
    intro c x arrives
    rw [passedOn]
    split
    · next own => exact forward (own ▸ arrives.mono (Nat.le_succ rounds))
    · exact inRound.reached c x arrives
  case ahead =>
    intro c absent x arrives
    rw [passedOn]
    split
    · next own => exact forward (own ▸ arrives)
    · next other =>
        exact inRound.ahead c (List.not_mem_cons_of_ne_of_not_mem (Ne.symm other) absent) x arrives
  case sound =>
    intro c x member
    rw [passedOn] at member
    split at member
    · next own =>
        exact own ▸ union.arrives_of_mem_transfer (fun d => inRound.sound d x) member
    · exact inRound.sound c x member

/-- A round goes on to its end, by induction on the blocks that are left of it. -/
theorem IsUnion.exists_rest_of_round (union : a.IsUnion)
    (inRound : a.InRound rounds solution current joined)
    : ∃ solution' queue, a.InRound rounds solution' [] queue
        ∧ ∀ budget, a.run (budget + current.length) solution (current ++ joined)
            = a.run budget solution' queue := by
  induction current generalizing solution joined with
  | nil => exact ⟨solution, joined, inRound, fun budget => rfl⟩
  | cons b current ih =>
      obtain ⟨joined', whole, inRound'⟩ := union.inRound_visit inRound
      obtain ⟨solution', queue, ended, same⟩ := ih inRound'
      refine ⟨solution', queue, ended, fun budget => ?_⟩
      rw [← same budget, ← whole]
      rfl

/-- Rounds follow each other, and each one takes no more visits than there are blocks. By induction
on the rounds.
-/
theorem IsUnion.exists_rounds (union : a.IsUnion) (rounds : Nat)
    : ∃ solution queue visits, a.InRound rounds solution queue [] ∧ visits ≤ rounds * g.size
        ∧ ∀ budget, a.run (budget + visits) { toFacts := a.initial, visits := 0 } a.firstVisits
            = a.run budget solution queue := by
  induction rounds with
  | zero => exact ⟨_, _, 0, union.inRound_start, by simp, fun budget => rfl⟩
  | succ rounds ih =>
      obtain ⟨solution, queue, visits, inRound, few, same⟩ := ih
      obtain ⟨solution', queue', ended, same'⟩ := union.exists_rest_of_round inRound
      have length := inRound.nodup.length_le_card
      rw [List.append_nil, Fintype.card_fin] at length
      refine ⟨solution', queue', queue.length + visits, union.inRound_next ended, ?_,
        fun budget => ?_⟩
      · rw [Nat.succ_mul]
        omega
      · rw [← Nat.add_assoc, same, ← same' budget, List.append_nil]

/-- The solver succeeds when every block may be visited once more than there are blocks. After as
many rounds as there are blocks everything has come to where it comes, so one more round ends it.
-/
theorem IsUnion.exists_solveWithin_eq_ok [Std.LawfulEqOrd α] (union : a.IsUnion) {budget : Nat}
    (enough : (g.size + 1) * g.size ≤ budget)
    : ∃ solution, a.solveWithin budget = .ok solution := by
  obtain ⟨solution, queue, visits, inRound, few, same⟩ := union.exists_rounds g.size
  have exact_ (b : g.Block) (x : α)
      : x ∈ a.passedOn solution.toFacts b ↔ ∃ rounds, a.Arrives x rounds b :=
    ⟨inRound.sound b x, fun ⟨_, arrives⟩ => inRound.reached b x arrives.within_size⟩
  have steady (b : g.Block)
      : a.transfer b (a.merged solution.toFacts b) = a.passedOn solution.toFacts b := by
    refine Std.ExtTreeSet.ext_mem fun x => ?_
    rw [exact_]
    refine ⟨union.arrives_of_mem_transfer fun c => (exact_ c x).mp, fun ⟨rounds, arrives⟩ => ?_⟩
    exact union.mem_transfer (fun c arrives => (exact_ c x).mpr ⟨rounds, arrives⟩)
      (arrives.mono (Nat.le_succ rounds))
  have length := inRound.nodup.length_le_card
  rw [List.append_nil, Fintype.card_fin] at length
  rw [Nat.succ_mul] at enough
  obtain ⟨rest, rfl⟩ := Nat.exists_eq_add_of_le' (Nat.le_trans few (by omega : _ ≤ budget))
  rw [solveWithin, same]
  exact exists_run_eq_ok steady (by omega)

end Analysis

end ThreeAddress
