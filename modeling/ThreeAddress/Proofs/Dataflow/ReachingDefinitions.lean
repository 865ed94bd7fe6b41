import ThreeAddress.Dataflow.ReachingDefinitions
import ThreeAddress.Proofs.Dataflow.Solving

/-! Which definitions a solution has at the positions of a block: those that a predecessor passes on
and parameters at the entry, until an operation defines their variable again.
-/

namespace ThreeAddress

/-- The union of some sets has the members of each of them, by induction on the sets. -/
theorem mem_unionAll {α : Type} [Ord α] [Std.TransOrd α] {sets : List (Std.ExtTreeSet α)} {x : α}
    : x ∈ unionAll sets ↔ ∃ set ∈ sets, x ∈ set := by
  have general (start : Std.ExtTreeSet α)
      : x ∈ sets.foldl (· ∪ ·) start ↔ x ∈ start ∨ ∃ set ∈ sets, x ∈ set := by
    induction sets generalizing start with
    | nil => simp
    | cons set rest ih =>
        rw [List.foldl_cons, ih, Std.ExtTreeSet.mem_union_iff, List.exists_mem_cons_iff, or_assoc]
  rw [unionAll, general]
  simp

theorem mem_paramDefs {params : List Param} {d : Definition}
    : d ∈ paramDefs params ↔ d.site = .param ∧ ∃ p ∈ params, p.name = d.var := by
  obtain ⟨var, site⟩ := d
  simp only [paramDefs, Std.ExtTreeSet.mem_ofList, List.contains_iff_mem, List.mem_map,
    Definition.mk.injEq]
  constructor
  · intro listed
    obtain ⟨p, member, name, rfl⟩ := listed
    exact ⟨rfl, p, member, name⟩
  · intro param
    obtain ⟨rfl, p, member, name⟩ := param
    exact ⟨p, member, name, rfl⟩

/-- None of the operations defines the variable. -/
def Untouched (ops : List Operation) (var : String) : Prop :=
  ∀ op ∈ ops, op.dest ≠ some var

theorem untouched_iff {ops : List Operation} {var : String}
    : Untouched ops var ↔ some var ∉ ops.map Operation.dest := by
  simp [Untouched]

namespace ReachMode

/-- Definitions of a variable outlast operations: definitions are not killed, or none of the
operations defines the variable.
-/
def Spares (mode : ReachMode) (ops : List Operation) (var : String) : Prop :=
  mode = .kill → Untouched ops var

theorem spares_cons {mode : ReachMode} {op : Operation} {rest : List Operation} {var : String}
    : mode.Spares (op :: rest) var ↔ mode.Spares [op] var ∧ mode.Spares rest var := by
  simp [Spares, Untouched, forall_and]

/-- After an operation there is its own definition, and what was there before and outlasts it. -/
theorem mem_after {mode : ReachMode} {block : BlockId} {defs : DefSet} {op : Operation}
    {index : Nat} {d : Definition}
    : d ∈ mode.after block defs (op, index)
      ↔ op.dest = some d.var ∧ d.site = .operation block index
        ∨ mode.Spares [op] d.var ∧ d ∈ defs := by
  obtain ⟨var, site⟩ := d
  cases result : op.dest with
  | none => simp [after, result, Spares, Untouched]
  | some dest =>
      have inserted (set : DefSet)
          : { var, site : Definition } ∈ set.insert { var := dest, site := .operation block index }
            ↔ (dest = var ∧ site = .operation block index) ∨ { var, site : Definition } ∈ set := by
        rw [Std.ExtTreeSet.mem_insert, Std.LawfulEqOrd.compare_eq_iff_eq, Definition.mk.injEq,
          eq_comm (a := site)]
      simp only [after, result, inserted, Option.some.injEq]
      apply or_congr_right
      cases mode with
      | keep => simp [surviving, Spares]
      | kill =>
          simp [surviving, Spares, Untouched, Std.ExtTreeSet.mem_filter, result,
            eq_comm (a := dest), and_comm]

/-- After some operations there are the definitions of those whose variable no later one defines,
unless none are killed, and what was there before and outlasts all of them. By induction on the
operations, which are numbered from some number on.
-/
theorem mem_foldl_after {mode : ReachMode} {block : BlockId} {ops : List Operation} {start : Nat}
    {defs : DefSet} {d : Definition}
    : d ∈ (ops.zipIdx start).foldl (mode.after block) defs
      ↔ (∃ index op, ops[index]? = some op ∧ op.dest = some d.var
          ∧ d.site = .operation block (start + index) ∧ mode.Spares (ops.drop (index + 1)) d.var)
        ∨ mode.Spares ops d.var ∧ d ∈ defs := by
  induction ops generalizing start defs with
  | nil => simp [Spares, Untouched]
  | cons op rest ih =>
      rw [List.zipIdx_cons, List.foldl_cons, ih, mem_after]
      constructor
      · rintro (⟨index, later, found, result, site, spared⟩ | ⟨spared, ⟨result, site⟩ | kept⟩)
        · rw [Nat.add_assoc, Nat.add_comm 1] at site
          exact .inl ⟨index + 1, later, found, result, site, spared⟩
        · exact .inl ⟨0, op, rfl, result, site, spared⟩
        · exact .inr ⟨spares_cons.mpr ⟨kept.1, spared⟩, kept.2⟩
      · rintro (⟨index, later, found, result, site, spared⟩ | ⟨spared, kept⟩)
        · cases index with
          | zero =>
              obtain rfl := Option.some.inj found
              exact .inr ⟨spared, .inl ⟨result, site⟩⟩
          | succ index =>
              rw [Nat.add_comm index, ← Nat.add_assoc] at site
              exact .inl ⟨index, later, found, result, site, spared⟩
        · obtain ⟨sparedHere, sparedLater⟩ := spares_cons.mp spared
          exact .inr ⟨sparedLater, .inr ⟨sparedHere, kept⟩⟩

end ReachMode

/-- When definitions are killed, those of the variable that an operation defines are replaced by the
new one, and all others stay.
-/
theorem mem_after_kill {block : BlockId} {defs : DefSet} {op : Operation} {index : Nat}
    {d : Definition}
    : d ∈ ReachMode.kill.after block defs (op, index)
      ↔ if op.dest = some d.var then d.site = .operation block index else d ∈ defs := by
  rw [ReachMode.mem_after]
  split <;> simp_all [ReachMode.Spares, Untouched]

namespace Cfg

variable {g : Cfg}

/-- The definitions that reach a position of a block, when some reach its top. -/
def defsBefore (g : Cfg) (mode : ReachMode) (b : g.Block) (top : DefSet) (index : Nat) : DefSet :=
  ((g.body b).zipIdx.take index).foldl (mode.after b) top

theorem defsBefore_succ {mode : ReachMode} {b : g.Block} {top : DefSet} {index : Nat}
    {op : Operation} (found : (g.body b)[index]? = some op)
    : g.defsBefore mode b top (index + 1)
      = mode.after b (g.defsBefore mode b top index) (op, index) := by
  rw [defsBefore, List.take_add_one, List.getElem?_zipIdx, found]
  simp [defsBefore]

theorem mem_defsBefore_succ {b : g.Block} {top : DefSet} {index : Nat} {op : Operation}
    (found : (g.body b)[index]? = some op) {d : Definition}
    : d ∈ g.defsBefore .kill b top (index + 1)
      ↔ if op.dest = some d.var then d.site = .operation b index
        else d ∈ g.defsBefore .kill b top index := by
  rw [defsBefore_succ found, mem_after_kill]

/-- The definitions that reach a position of a block in a solution. -/
def reachingAt (g : Cfg) (mode : ReachMode) (solution : Solution g.toFlowGraph DefSet) (b : g.Block)
    (index : Nat)
    : DefSet :=
  g.defsBefore mode b (solution.top.get b) index

variable {params : List Param} {mode : ReachMode}

theorem defsBefore_length (b : g.Block) (top : DefSet)
    : g.defsBefore mode b top (g.body b).length
      = (g.reachingDefinitions params mode).transfer b top := by
  rw [defsBefore, List.take_of_length_le (by simp)]
  rfl

theorem mem_merged_reachingDefinitions {facts : Facts g.toFlowGraph DefSet} {b : g.Block}
    {d : Definition}
    : d ∈ (g.reachingDefinitions params mode).merged facts b
      ↔ (∃ p ∈ g.preds b, d ∈ facts.bottom.get p) ∨ b = g.entry ∧ d ∈ paramDefs params := by
  have merged : (g.reachingDefinitions params mode).merged facts b
      = unionAll ((g.preds b).map (fun p => facts.bottom.get p)
          ++ if b == g.entry then [paramDefs params] else []) := rfl
  rw [merged, mem_unionAll]
  simp only [List.mem_append, or_and_right, exists_or, List.mem_map, exists_exists_and_eq_and,
    beq_iff_eq]
  apply or_congr_right
  split <;> simp_all

variable {visits : Nat} {solution : Solution g.toFlowGraph DefSet}

/-- At the top of a block are the definitions that its predecessors pass on, and parameters at the
entry.
-/
theorem mem_top_of_solve
    (solved : g.solve (g.reachingDefinitions params mode) visits = .ok solution) {b : g.Block}
    {d : Definition}
    : d ∈ solution.top.get b
      ↔ (∃ p ∈ g.preds b, d ∈ solution.bottom.get p) ∨ b = g.entry ∧ d ∈ paramDefs params := by
  have settled : solution.top.get b
      = (g.reachingDefinitions params mode).merged solution.toFacts b :=
    (settled_of_solve solved b).received_eq
  rw [settled, mem_merged_reachingDefinitions]

/-- At the bottom of a block are the definitions that reach its end. -/
theorem bottom_eq_of_solve
    (solved : g.solve (g.reachingDefinitions params mode) visits = .ok solution) (b : g.Block)
    : solution.bottom.get b = g.reachingAt mode solution b (g.body b).length := by
  have settled := settled_of_solve solved b
  calc
    solution.bottom.get b
        = (g.reachingDefinitions params mode).transfer b
            ((g.reachingDefinitions params mode).merged solution.toFacts b) :=
      settled.passedOn_eq
    _ = (g.reachingDefinitions params mode).transfer b (solution.top.get b) :=
      congrArg _ settled.received_eq.symm
    _ = g.reachingAt mode solution b (g.body b).length := (defsBefore_length b _).symm

end Cfg

end ThreeAddress
