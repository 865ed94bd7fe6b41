import ThreeAddress.Proofs.Ssa.Placement

/-! Phis inserted one after another, each behind those that its block has already, while a worklist
follows the frontiers of the blocks that define a variable. In the end every block has the phis that
are placed in it, in the order in which they are placed.
-/

namespace ThreeAddress

/-- A block that joins a set is one less outside of it. By induction on the blocks, of which it is
one.
-/
theorem FlowGraph.countOutside_insert {g : FlowGraph} {set : BlockSet} {b : g.Block}
    (outside : set.contains b = false)
    : g.countOutside (set.insert b) + 1 = g.countOutside set := by
  have counted (blocks : List g.Block)
      : blocks.countP (fun c : g.Block => !(set.insert b).contains c) + blocks.count b
        = blocks.countP fun c : g.Block => !set.contains c := by
    induction blocks with
    | nil => rfl
    | cons c rest ih =>
        by_cases here : b = c
        · subst here
          simp [outside, ← ih, Nat.add_assoc]
        · simp [List.countP_cons, Fin.val_inj, here, Ne.symm here, ← ih]
          omega
  have once : g.blocks.count b = 1 :=
    List.count_eq_one_of_mem (List.nodup_finRange _) (g.mem_blocks b)
  rw [countOutside, countOutside, ← counted, once]

theorem FlowGraph.length_members_add_countOutside (g : FlowGraph) (set : BlockSet)
    : (g.members set).length + g.countOutside set = g.size := by
  have split := List.length_eq_countP_add_countP (fun b : g.Block => set.contains b)
    (l := g.blocks)
  simp only [Bool.not_eq_true, Bool.decide_eq_false] at split
  rw [members, ← List.countP_eq_length_filter, countOutside, ← split, blocks,
    List.length_finRange]

namespace Placement

theorem varsAt_cons (entry : String × BlockSet) (rest : Placement) (b : BlockId)
    : varsAt (entry :: rest) b
      = (if entry.2.contains b then [entry.1] else []) ++ rest.varsAt b := by
  rw [varsAt, List.filter_cons]
  split <;> rfl

theorem phiCount_cons (entry : String × BlockSet) (rest : Placement) (g : FlowGraph)
    : phiCount (entry :: rest) g = (g.members entry.2).length + rest.phiCount g := by
  rw [phiCount, List.flatMap_cons, List.length_append]
  rfl

end Placement

-----------------------------------------------------------------------------------------
-- Insertion step by step
-----------------------------------------------------------------------------------------

/-- Phis that are being inserted into a graph. -/
@[ext]
structure Inserting (g : Cfg) where
  /-- The operations of each block, with the phis inserted so far. -/
  body : g.Block → List Operation
  /-- The variables of these phis in the order in which they stand in the block. -/
  vars : g.Block → List String
  /-- How many phis have been inserted. -/
  count : Nat

/-- Before any phi is inserted. -/
def Inserting.start (g : Cfg) : Inserting g where
  body := g.body
  vars _ := []
  count := 0

/-- Phis for one variable that are being inserted. -/
structure Spreading (g : Cfg) extends Inserting g where
  /-- The blocks with a phi for the variable. -/
  hasPhi : BlockSet
  /-- The blocks that have been on the worklist. -/
  queued : BlockSet
  /-- The blocks whose frontiers are to be looked at, what is next in front. -/
  worklist : List g.Block

namespace Globals

variable {g : Cfg} (globals : Globals g) (frontiers : BlockTable g.toFlowGraph) (var : String)

/-- Inserts a phi into a block behind the phis that it has. -/
def insertPhi (state : Inserting g) (b : g.Block) : Inserting g where
  body c :=
    if c = b then (state.body b).insertIdx (state.vars b).length (globals.blankPhi b var)
    else state.body c
  vars c := if c = b then state.vars b ++ [var] else state.vars c
  count := state.count + 1

/-- Comes to a block in a frontier. If it has no phi for the variable it gets one, and it joins the
worklist if it has never been there.
-/
def arrive (state : Spreading g) (b : g.Block) : Spreading g :=
  if state.hasPhi.contains b then state
  else {
    globals.insertPhi var state.toInserting b with
    hasPhi := state.hasPhi.insert b
    queued := state.queued.insert b
    worklist := if state.queued.contains b then state.worklist else b :: state.worklist }

/-- A block that joins the worklist is one less that may. -/
theorem arrive_spends (state : Spreading g) (b : g.Block)
    : g.countOutside (globals.arrive var state b).queued
        + (globals.arrive var state b).worklist.length
      ≤ g.countOutside state.queued + state.worklist.length := by
  unfold arrive
  split
  · exact Nat.le_refl _
  · cases old : state.queued.contains b with
    | true =>
        have same : state.queued.insert b = state.queued := by
          refine BlockSet.ext fun c => ?_
          by_cases here : b.val = c
          · simp [← here, old]
          · simp [here]
        simp [same]
    | false =>
        have fewer := g.countOutside_insert_lt old
        simp only [Bool.false_eq_true, ↓reduceIte, List.length_cons]
        omega

theorem foldl_arrive_spends (state : Spreading g) (blocks : List g.Block)
    : g.countOutside (blocks.foldl (globals.arrive var) state).queued
        + (blocks.foldl (globals.arrive var) state).worklist.length
      ≤ g.countOutside state.queued + state.worklist.length := by
  induction blocks generalizing state with
  | nil => exact Nat.le_refl _
  | cons b rest ih => exact Nat.le_trans (ih _) (globals.arrive_spends var state b)

/-- Looks at the frontiers of the blocks on the worklist until it is empty. -/
def spread (state : Spreading g) : Spreading g :=
  match _ : state.worklist with
  | [] => state
  | b :: rest =>
    spread
      ((g.members (frontiers.get b)).foldl (globals.arrive var) { state with worklist := rest })
termination_by g.countOutside state.queued + state.worklist.length
decreasing_by
  rename_i top
  have spent := globals.foldl_arrive_spends var { state with worklist := rest }
    (g.members (frontiers.get b))
  simp only [top, List.length_cons]
  exact Nat.lt_succ_of_le spent

/-- Before the phis for a variable are inserted, the blocks that define it are on the worklist. -/
def atDefinitions (state : Inserting g) (var : String) : Spreading g :=
  { state with
    hasPhi := .empty
    queued := globals.defBlocks var
    worklist := (g.members (globals.defBlocks var)).reverse }

/-- Inserts the phis for a variable, if it has a definition. -/
def insertFor (state : Inserting g) (var : String) : Inserting g :=
  if globals.isDefined var then
    (globals.spread frontiers var (globals.atDefinitions state var)).toInserting
  else state

/-- Inserts the phis for all global variables. -/
def insertPhis : Inserting g :=
  globals.names.foldl (globals.insertFor frontiers) (.start g)

-----------------------------------------------------------------------------------------
-- Where the worklist leads
-----------------------------------------------------------------------------------------

variable {globals frontiers var}

theorem spread_nil {state : Spreading g} (top : state.worklist = [])
    : globals.spread frontiers var state = state := by
  rw [spread]
  split
  · rfl
  · next some => rw [top] at some; cases some

theorem spread_cons {state : Spreading g} {b : g.Block} {rest : List g.Block}
    (top : state.worklist = b :: rest)
    : globals.spread frontiers var state
      = globals.spread frontiers var
          ((g.members (frontiers.get b)).foldl (globals.arrive var)
            { state with worklist := rest }) := by
  rw [spread]
  split
  · next none => rw [top] at none; cases none
  · next some => rw [top] at some; cases some; rfl

/-- What comes of a frontier: its blocks have phis from now on, and those that had none and were on
the worklist never before are on top of it, the last one first. By induction on the blocks.
-/
theorem foldl_arrive (globals : Globals g) (var : String) {blocks : List g.Block}
    (distinct : blocks.Nodup) (state : Spreading g)
    : (∀ c : g.Block, (blocks.foldl (globals.arrive var) state).hasPhi.contains c
          = (state.hasPhi.contains c || blocks.contains c))
      ∧ (∀ c : g.Block, (blocks.foldl (globals.arrive var) state).queued.contains c
          = (state.queued.contains c || blocks.contains c && !state.hasPhi.contains c))
      ∧ (blocks.foldl (globals.arrive var) state).worklist
        = (blocks.filter fun c : g.Block =>
            !state.hasPhi.contains c && !state.queued.contains c).reverse
          ++ state.worklist := by
  induction blocks generalizing state with
  | nil => simp
  | cons b rest ih =>
      obtain ⟨absent, distinct⟩ := List.nodup_cons.mp distinct
      obtain ⟨hasPhi, queued, worklist⟩ := ih distinct (globals.arrive var state b)
      simp only [List.foldl_cons, hasPhi, queued, worklist]
      cases known : state.hasPhi.contains b with
      | true =>
          simp only [arrive, known, ↓reduceIte, List.contains_cons]
          refine ⟨fun c => ?_, fun c => ?_, ?_⟩
          · by_cases here : c = b <;> simp [here, known, beq_false_of_ne]
          · by_cases here : c = b <;> simp [here, known, beq_false_of_ne]
          · rw [List.filter_cons_of_neg (by simp [known])]
      | false =>
          have same : rest.filter (fun c : g.Block =>
                !(state.hasPhi.insert b).contains c && !(state.queued.insert b).contains c)
              = rest.filter fun c : g.Block =>
                !state.hasPhi.contains c && !state.queued.contains c := by
            refine List.filter_congr fun c listed => ?_
            have other : b ≠ c := fun same => absent (same ▸ listed)
            simp [Fin.val_inj, other]
          simp only [arrive, known, Bool.false_eq_true, ↓reduceIte, List.contains_cons, same]
          refine ⟨fun c => ?_, fun c => ?_, ?_⟩
          · by_cases here : c = b <;> simp [Fin.val_inj, here, beq_false_of_ne, eq_comm (a := b)]
          · by_cases here : c = b <;>
              simp [Fin.val_inj, here, known, beq_false_of_ne, eq_comm (a := b)]
          · cases old : state.queued.contains b <;> simp [known, old]

/-- The worklist finds the iterated frontier. Closing a set under taking frontiers takes the same
blocks off its worklist, and adds what is new in a frontier all at once. By induction on the
closure.
-/
theorem hasPhi_spread {found queued : BlockSet} (state : Spreading g)
    (sameFound : ∀ c : g.Block, state.hasPhi.contains c = found.contains c)
    (sameQueued : ∀ c : g.Block, state.queued.contains c = queued.contains c) (c : g.Block)
    : (globals.spread frontiers var state).hasPhi.contains c
      = (g.closeUnder frontiers found queued state.worklist).contains c := by
  generalize top : state.worklist = blocks
  fun_induction g.closeUnder frontiers found queued blocks generalizing state with
  | case1 found queued =>
      rw [spread_nil top]
      exact sameFound c
  | case2 found queued b rest fresh ih =>
      have distinct : (g.members (frontiers.get b)).Nodup := (List.nodup_finRange _).filter _
      obtain ⟨hasPhi, queued', worklist⟩ := foldl_arrive globals var distinct
        { state with worklist := rest }
      rw [spread_cons top]
      have inFrontier (d : g.Block)
          : (g.members (frontiers.get b)).contains d = (frontiers.get b).contains d := by
        rw [Bool.eq_iff_iff, List.contains_iff_mem, g.mem_members]
      refine ih _ (fun d => ?_) (fun d => ?_) ?_
      · rw [hasPhi, inFrontier, BlockSet.contains_union, BlockSet.contains_diff, sameFound]
        cases found.contains d <;> simp
      · rw [queued', inFrontier, BlockSet.contains_union, BlockSet.contains_diff, sameFound,
          sameQueued]
      · rw [worklist]
        simp only [FlowGraph.members, List.filter_filter, sameFound, sameQueued, fresh,
          BlockSet.contains_diff, Bool.and_comm, Bool.and_left_comm, Bool.and_assoc]

-----------------------------------------------------------------------------------------
-- What is inserted
-----------------------------------------------------------------------------------------

/-- The phis of every block stand in front of its operations. -/
def InFront (globals : Globals g) (state : Inserting g) : Prop :=
  ∀ b, state.body b = (state.vars b).map (globals.blankPhi b) ++ g.body b

/-- An inserted phi stands right behind the others, since its index is their number. -/
theorem InFront.insertPhi {state : Inserting g} (front : globals.InFront state) (var : String)
    (b : g.Block)
    : globals.InFront (globals.insertPhi var state b) := by
  intro c
  by_cases here : c = b
  · have behind := List.modifyTailIdx_add (List.cons (globals.blankPhi b var)) 0
      ((state.vars b).map (globals.blankPhi b)) (g.body b)
    rw [List.length_map, Nat.add_zero] at behind
    simp [Globals.insertPhi, here, front b, List.insertIdx, behind]
  · simp only [Globals.insertPhi, if_neg here, front c]

/-- What has been inserted for a variable, after phis for others. The one for the variable stands
behind the others, and all have been counted.
-/
structure Inserted (globals : Globals g) (var : String) (before : Inserting g)
    (state : Spreading g)
    : Prop where
  body : globals.InFront state.toInserting
  vars : ∀ b, state.vars b = before.vars b ++ if state.hasPhi.contains b then [var] else []
  count : state.count + g.countOutside state.hasPhi = before.count + g.size

variable {before : Inserting g} {state : Spreading g}

/-- What has been inserted is still right when a block is reached. -/
theorem Inserted.arrive (inserted : globals.Inserted var before state) (b : g.Block)
    : globals.Inserted var before (globals.arrive var state b) := by
  unfold Globals.arrive
  split
  · exact inserted
  · next reached =>
      obtain ⟨body, vars, count⟩ := inserted
      have none : state.hasPhi.contains b = false := by simpa using reached
      have outside := FlowGraph.countOutside_insert none
      refine ⟨body.insertPhi var b, fun c => ?vars, ?count⟩
      case vars =>
        by_cases here : c = b
        · simp [insertPhi, here, vars, none]
        · simp [insertPhi, here, vars, Fin.val_inj, Ne.symm here]
      case count =>
        simp only [insertPhi]
        omega

theorem Inserted.foldl_arrive (inserted : globals.Inserted var before state)
    (blocks : List g.Block)
    : globals.Inserted var before (blocks.foldl (globals.arrive var) state) := by
  induction blocks generalizing state with
  | nil => exact inserted
  | cons b rest ih => exact ih (inserted.arrive b)

/-- What has been inserted is right when the worklist is empty, by induction on the steps. -/
theorem Inserted.spread (frontiers : BlockTable g.toFlowGraph)
    (inserted : globals.Inserted var before state)
    : globals.Inserted var before (globals.spread frontiers var state) := by
  fun_induction Globals.spread globals frontiers var state with
  | case1 state none => exact inserted
  | case2 state b rest top ih =>
      have taken : globals.Inserted var before { state with worklist := rest } :=
        ⟨inserted.body, inserted.vars, inserted.count⟩
      exact ih (taken.foldl_arrive _)

/-- For a variable with a definition, the blocks in the iterated frontier of its definitions get one
phi each, behind those that they have.
-/
theorem insertFor_of_isDefined (frontiers : BlockTable g.toFlowGraph)
    (defined : globals.isDefined var = true)
    (front : globals.InFront before)
    : let after := globals.insertFor frontiers before var
      let placed := g.iteratedFrontier frontiers (globals.defBlocks var)
      globals.InFront after
        ∧ (∀ b : g.Block, after.vars b = before.vars b ++ if placed.contains b then [var] else [])
        ∧ after.count = before.count + (g.members placed).length := by
  have start : globals.Inserted var before (globals.atDefinitions before var) := by
    refine ⟨front, by simp [atDefinitions], ?_⟩
    simp [atDefinitions, FlowGraph.countOutside, FlowGraph.blocks]
  have found (c : g.Block)
      : (globals.spread frontiers var (globals.atDefinitions before var)).hasPhi.contains c
        = (g.iteratedFrontier frontiers (globals.defBlocks var)).contains c :=
    hasPhi_spread _ (fun _ => rfl) (fun _ => rfl) c
  obtain ⟨body, vars, count⟩ := start.spread frontiers
  simp only [insertFor, defined, ↓reduceIte]
  refine ⟨body, fun b => ?_, ?_⟩
  · rw [vars, found]
  · have split := FlowGraph.length_members_add_countOutside g.toFlowGraph
      (g.iteratedFrontier frontiers (globals.defBlocks var))
    simp only [FlowGraph.countOutside, found] at count split
    omega

/-- The phis of a placement are inserted variable by variable, by induction on the variables. -/
theorem foldl_insertFor (globals : Globals g) (frontiers : BlockTable g.toFlowGraph)
    (names : List String)
    (front : globals.InFront before)
    : let after := names.foldl (globals.insertFor frontiers) before
      let placement : Placement := (names.filter globals.isDefined).map fun var =>
        (var, g.iteratedFrontier frontiers (globals.defBlocks var))
      globals.InFront after
        ∧ (∀ b : g.Block, after.vars b = before.vars b ++ placement.varsAt b)
        ∧ after.count = before.count + placement.phiCount g.toFlowGraph := by
  induction names generalizing before with
  | nil => exact ⟨front, by simp [Placement.varsAt], by simp [Placement.phiCount]⟩
  | cons var rest ih =>
      cases defined : globals.isDefined var with
      | false =>
          have skipped : globals.insertFor frontiers before var = before := by
            simp [insertFor, defined]
          rw [List.foldl_cons, skipped, List.filter_cons_of_neg (by simp [defined])]
          exact ih front
      | true =>
          obtain ⟨body, vars, count⟩ := insertFor_of_isDefined frontiers defined front
          obtain ⟨body', vars', count'⟩ := ih body
          rw [List.foldl_cons, List.filter_cons_of_pos defined]
          refine ⟨body', fun b => ?_, ?_⟩
          · rw [vars', vars, List.map_cons, Placement.varsAt_cons, List.append_assoc]
          · rw [count', count, List.map_cons, Placement.phiCount_cons, Nat.add_assoc]

/-- Inserting phis one after another comes to an end, and gives every block the phis that are placed
in it, in the order of the placement and in front of its operations.
-/
theorem insertPhis_eq (globals : Globals g) (frontiers : BlockTable g.toFlowGraph)
    : let placement := globals.placement frontiers
      globals.insertPhis frontiers = {
        body := globals.bodyWithPhis placement
        vars := fun b => placement.varsAt b
        count := placement.phiCount g.toFlowGraph } := by
  have front : globals.InFront (.start g) := fun _ => rfl
  obtain ⟨body, vars, count⟩ := foldl_insertFor globals frontiers globals.names front
  have placed (b : g.Block)
      : (globals.insertPhis frontiers).vars b = (globals.placement frontiers).varsAt b :=
    vars b
  refine Inserting.ext (funext fun b => ?_) (funext placed) (count.trans (Nat.zero_add _))
  rw [insertPhis, body, ← insertPhis, placed]
  rfl

end Globals

end ThreeAddress
