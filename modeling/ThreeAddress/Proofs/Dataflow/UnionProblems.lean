import ThreeAddress.Dataflow.LiveVariables
import ThreeAddress.Proofs.ControlFlow.Blocks
import ThreeAddress.Proofs.Dataflow.Rounds

/-! Reaching definitions and live variables are problems of sets that are united where edges meet.
So the solver succeeds on them if it may visit every block once more than there are blocks.
-/

namespace ThreeAddress

/-- A variable is live before an operation if a use makes it so, or if it is live after it and not
defined.
-/
theorem Operation.mem_liveBefore {op : Operation} {live : NameSet} {var : String}
    : var ∈ op.liveBefore live
      ↔ op.isPhi = false ∧ var ∈ op.args ∨ var ∈ live ∧ op.dest ≠ some var := by
  unfold liveBefore
  cases op.dest with
  | none =>
      cases op.isPhi <;> simp [Std.ExtTreeSet.mem_insertMany_list, or_comm]
  | some other =>
      have erased : var ∈ live.erase other ↔ var ∈ live ∧ other ≠ var := by
        rw [Std.ExtTreeSet.mem_erase, ne_eq, Std.LawfulEqOrd.compare_eq_iff_eq, and_comm]
      cases op.isPhi <;> simp [Std.ExtTreeSet.mem_insertMany_list, erased, or_comm]

/-- Operations use the variable, and none in front of the use defines it. Phis do not count, since
their arguments are used where control comes from.
-/
def UsedFirst (ops : List Operation) (var : String) : Prop :=
  ∃ index op, ops[index]? = some op ∧ op.isPhi = false ∧ var ∈ op.args
    ∧ Untouched (ops.take index) var

theorem usedFirst_cons {op : Operation} {rest : List Operation} {var : String}
    : UsedFirst (op :: rest) var
      ↔ op.isPhi = false ∧ var ∈ op.args ∨ op.dest ≠ some var ∧ UsedFirst rest var := by
  constructor
  · rintro ⟨index, user, found, noPhi, used, untouched⟩
    cases index with
    | zero =>
        obtain rfl := Option.some.inj found
        exact .inl ⟨noPhi, used⟩
    | succ index =>
        obtain ⟨here, later⟩ := List.forall_mem_cons.mp untouched
        exact .inr ⟨here, index, user, found, noPhi, used, later⟩
  · rintro (⟨noPhi, used⟩ | ⟨here, index, user, found, noPhi, used, later⟩)
    · exact ⟨0, op, rfl, noPhi, used, by simp [Untouched]⟩
    · exact ⟨index + 1, user, found, noPhi, used, List.forall_mem_cons.mpr ⟨here, later⟩⟩

/-- A variable is live before some operations if they use it first, or if it is live after them and
none defines it. By induction on the operations.
-/
theorem mem_foldr_liveBefore {ops : List Operation} {live : NameSet} {var : String}
    : var ∈ ops.foldr Operation.liveBefore live
      ↔ UsedFirst ops var ∨ Untouched ops var ∧ var ∈ live := by
  induction ops with
  | nil => simp [UsedFirst, Untouched]
  | cons op rest ih =>
      have untouched : Untouched (op :: rest) var ↔ op.dest ≠ some var ∧ Untouched rest var :=
        List.forall_mem_cons
      rw [List.foldr_cons, Operation.mem_liveBefore, ih, usedFirst_cons, untouched]
      tauto

namespace Cfg

/-- A block gives the definitions that it leaves behind, and keeps those that outlast it. -/
theorem treats_reachingDefinitions (g : Cfg) (params : List Param) (mode : ReachMode) (b : g.Block)
    (d : Definition)
    : Treats ((g.reachingDefinitions params mode).transfer b) d
        (∃ index op, (g.body b)[index]? = some op ∧ op.dest = some d.var
          ∧ d.site = .operation b index ∧ mode.Spares ((g.body b).drop (index + 1)) d.var)
        (mode.Spares (g.body b) d.var) := by
  intro defs
  have whole : d ∈ ((g.body b).zipIdx 0).foldl (mode.after b) defs ↔ _ :=
    ReachMode.mem_foldl_after
  simp only [Nat.zero_add] at whole
  exact whole

/-- Reaching definitions are united, and in blocks they do not depend on each other. -/
theorem isUnion_reachingDefinitions (g : Cfg) (params : List Param) (mode : ReachMode)
    : (g.reachingDefinitions params mode).IsUnion where
  bottom := rfl
  merge := rfl
  transfer b := separable_of_treats (g.treats_reachingDefinitions params mode b)

theorem mem_edgeUses {g : Cfg} {b : g.Block} {var : String}
    : var ∈ g.edgeUses b
      ↔ ∃ s ∈ g.succs b, ∃ phi ∈ (g.content.get s).leadingPhis, (var, g.label b) ∈ phi.slots := by
  simp [edgeUses]

/-- A block gives the variables that it uses first, and those that it does not define and that are
used on an edge behind it. It keeps those that it does not define.
-/
theorem treats_liveVariables (g : Cfg) (b : g.Block) (var : String)
    : Treats (g.liveVariables.transfer b) var
        (UsedFirst (g.body b) var ∨ Untouched (g.body b) var ∧ var ∈ g.edgeUses b)
        (Untouched (g.body b) var) := by
  intro live
  have whole : var ∈ g.liveVariables.transfer b live
      ↔ UsedFirst (g.body b) var
        ∨ Untouched (g.body b) var ∧ var ∈ live.insertMany (g.edgeUses b) :=
    mem_foldr_liveBefore
  rw [whole, Std.ExtTreeSet.mem_insertMany_list, List.contains_iff_mem]
  tauto

/-- Live variables are united, and in blocks they do not depend on each other. -/
theorem isUnion_liveVariables (g : Cfg) : g.liveVariables.IsUnion where
  bottom := rfl
  merge := rfl
  transfer b := separable_of_treats (g.treats_liveVariables b)

/-- The solver succeeds on a problem of united sets when it may visit every block once more than
there are blocks.
-/
theorem exists_solve_eq_ok {g : Cfg} {α : Type} [Ord α] [Std.TransOrd α] [Std.LawfulEqOrd α]
    {a : Analysis g.toFlowGraph (Std.ExtTreeSet α)} (union : a.IsUnion) {visits : Nat}
    (enough : g.size + 1 ≤ visits)
    : ∃ solution, g.solve a visits = .ok solution := by
  obtain ⟨solution, solved⟩ :=
    union.exists_solveWithin_eq_ok (Nat.mul_le_mul_right g.size enough)
  exact ⟨solution, by rw [solve, solved]; rfl⟩

/-- Reaching definitions, whether earlier ones are killed or not and whatever the parameters are,
and live variables are found for every graph when each block may be visited once more than there are
blocks. After as many rounds of visits as there are blocks every member has gone all its ways.
-/
theorem exists_solve_reachingDefinitions_liveVariables {g : Cfg} {visits : Nat}
    (enough : g.size + 1 ≤ visits)
    : (∀ params mode, ∃ solution, g.solve (g.reachingDefinitions params mode) visits = .ok solution)
      ∧ ∃ solution, g.solve g.liveVariables visits = .ok solution :=
  ⟨fun params mode => exists_solve_eq_ok (g.isUnion_reachingDefinitions params mode) enough,
    exists_solve_eq_ok g.isUnion_liveVariables enough⟩

end Cfg

/-- Two loops that a branch leads into at both ends. -/
def crossedLoops : Function where
  name := "cross"
  params := [{ name := "c", ty := .bool }, { name := "x", ty := .int }]
  body := [
    .label "start",
    .operation { opcode := .br, args := ["c"], labels := ["left", "right"] },
    .label "left",
    .operation { opcode := .add, dest := "x", ty := some .int, args := ["x", "x"] },
    .operation { opcode := .jmp, labels := ["right"] },
    .label "right",
    .operation { opcode := .br, args := ["c"], labels := ["left", "right"] }]

/-- Four visits for each of the three blocks are enough. -/
theorem exists_solve_crossedLoops
    : ∃ g : Cfg, Cfg.ofFunction? crossedLoops = .ok g ∧ g.size = 3
        ∧ (∃ solution,
            g.solve (g.reachingDefinitions crossedLoops.params .kill) 4 = .ok solution)
        ∧ ∃ solution, g.solve g.liveVariables 4 = .ok solution := by
  have accepted : (Cfg.ofFunction? crossedLoops).toOption.any (·.size == 3) = true := by cbv
  obtain ⟨g, graph, size⟩ := exists_eq_ok_of_any accepted
  rw [beq_iff_eq] at size
  obtain ⟨reaching, live⟩ :=
    Cfg.exists_solve_reachingDefinitions_liveVariables (by omega : g.size + 1 ≤ 4)
  exact ⟨g, graph, size, reaching crossedLoops.params .kill, live⟩

end ThreeAddress
