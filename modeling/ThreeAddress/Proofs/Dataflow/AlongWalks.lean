import ThreeAddress.Proofs.ControlFlow.Blocks
import ThreeAddress.Proofs.Dataflow.UnionProblems
import ThreeAddress.Proofs.Dataflow.Ways

/-! Reaching definitions and live variables are exact. A definition is at the top of a block exactly
when it gets there along some walk without being replaced, and a variable is live there exactly when
some walk leads to a use of it before it is defined.
-/

namespace ThreeAddress

namespace Cfg

variable {g : Cfg} {params : List Param} {mode : ReachMode} {visits : Nat}

-----------------------------------------------------------------------------------------
-- Reaching definitions
-----------------------------------------------------------------------------------------

/-- A walk of one edge or more leads from one block to another. When definitions are killed, no
operation behind a position of the first block defines the variable, and none in the blocks between.
-/
def LeadsFrom (g : Cfg) (mode : ReachMode) (var : String) (c : g.Block) (index : Nat)
    (b : g.Block)
    : Prop :=
  ∃ left, g.Walk c (c :: left) b
    ∧ (mode = .kill → Untouched ((g.body c).drop (index + 1)) var
      ∧ ∀ d ∈ left, Untouched (g.body d) var)

/-- A walk of any length leads from the entry to a block. When definitions are killed, no operation
of a block in front of the last one defines the variable.
-/
def LeadsFromEntry (g : Cfg) (mode : ReachMode) (var : String) (b : g.Block) : Prop :=
  ∃ left, g.Walk g.entry left b ∧ (mode = .kill → ∀ d ∈ left, Untouched (g.body d) var)

/-- A definition is at the top of a block exactly when it is one that a block leaves behind, or a
parameter, and a walk of blocks that it outlasts leads there from that block, or from the entry.
-/
theorem mem_top_reachingDefinitions_iff {solution : Solution g.toFlowGraph DefSet}
    (solved : g.solve (g.reachingDefinitions params mode) visits = .ok solution) {b : g.Block}
    {d : Definition}
    : d ∈ solution.top.get b
      ↔ (∃ (c : g.Block) (index : Nat) (op : Operation), (g.body c)[index]? = some op
          ∧ op.dest = some d.var ∧ d.site = .operation c index ∧ g.LeadsFrom mode d.var c index b)
        ∨ (d.site = .param ∧ ∃ p ∈ params, p.name = d.var) ∧ g.LeadsFromEntry mode d.var b := by
  have exact := mem_top_iff_of_forward (g.isUnion_reachingDefinitions params mode) rfl
    (fun c => g.treats_reachingDefinitions params mode c d) solved b
  rw [exact, ← mem_paramDefs]
  apply or_congr
  · constructor
    · rintro ⟨c, left, walk, ⟨index, op, found, result, site, spared⟩, all⟩
      exact ⟨c, index, op, found, result, site, left, walk,
        fun kills => ⟨spared kills, fun e listed => all e listed kills⟩⟩
    · rintro ⟨c, index, op, found, result, site, left, walk, spared⟩
      exact ⟨c, left, walk, ⟨index, op, found, result, site, fun kills => (spared kills).1⟩,
        fun e listed kills => (spared kills).2 e listed⟩
  · apply and_congr_right
    intro _
    constructor
    · rintro ⟨left, walk, all⟩
      exact ⟨left, walk, fun kills e listed => all e listed kills⟩
    · rintro ⟨left, walk, spared⟩
      exact ⟨left, walk, fun e listed kills => spared kills e listed⟩

/-- Reaching definitions are exact. The definition of a variable by an operation is at the top of a
block exactly when a walk leads there from its position, and that of a parameter exactly when one
leads there from the entry, and when definitions are killed, no operation on the way defines the
variable. No other definition is at the top of a block.
-/
theorem reachingDefinitions_exact {solution : Solution g.toFlowGraph DefSet}
    (solved : g.solve (g.reachingDefinitions params mode) visits = .ok solution) (b : g.Block)
    : (∀ (c : g.Block) (index : Nat) (op : Operation) (var : String),
        (g.body c)[index]? = some op → op.dest = some var →
          ({ var, site := .operation c index } ∈ solution.top.get b
            ↔ g.LeadsFrom mode var c index b))
      ∧ (∀ var, { var, site := .param } ∈ solution.top.get b
          ↔ (∃ p ∈ params, p.name = var) ∧ g.LeadsFromEntry mode var b)
      ∧ ∀ var block index, { var, site := .operation block index } ∈ solution.top.get b →
          ∃ (c : g.Block) (op : Operation),
            block = c.val ∧ (g.body c)[index]? = some op ∧ op.dest = some var := by
  refine ⟨fun c index op var found result => ?operation, fun var => ?param,
    fun var block index member => ?only⟩
  case operation =>
    rw [mem_top_reachingDefinitions_iff solved]
    constructor
    · rintro (⟨c', index', op', -, -, site, leads⟩ | ⟨⟨site, -⟩, -⟩)
      · obtain ⟨same, rfl⟩ := DefSite.operation.inj site
        obtain rfl := Fin.ext same
        exact leads
      · cases site
    · exact fun leads => .inl ⟨c, index, op, found, result, rfl, leads⟩
  case param =>
    rw [mem_top_reachingDefinitions_iff solved]
    constructor
    · rintro (⟨c, index, op, -, -, site, -⟩ | ⟨⟨-, param⟩, leads⟩)
      · cases site
      · exact ⟨param, leads⟩
    · exact fun ⟨param, leads⟩ => .inr ⟨⟨rfl, param⟩, leads⟩
  case only =>
    rcases (mem_top_reachingDefinitions_iff solved).mp member with
      ⟨c, index', op, found, result, site, -⟩ | ⟨⟨site, -⟩, -⟩
    · obtain ⟨same, rfl⟩ := DefSite.operation.inj site
      exact ⟨c, op, same, found, result⟩
    · cases site

end Cfg

/-- Doubles a number twice in each round. The number is a parameter, but it is set at the start. -/
def doublingTwice : Function where
  name := "double"
  params := [{ name := "x", ty := .int }]
  body := [
    .label "start",
    .operation { opcode := .const, dest := "x", ty := some .int, value := some (.int 1) },
    .label "loop",
    .operation { opcode := .add, dest := "x", ty := some .int, args := ["x", "x"] },
    .operation { opcode := .add, dest := "x", ty := some .int, args := ["x", "x"] },
    .operation { opcode := .jmp, labels := ["loop"] }]

/-- Around the loop comes what the second operation of it gives, but not what the first one gives,
and the parameter is at the top of the start only.
-/
theorem reachingDefinitions_exact_doublingTwice
    : ∃ (g : Cfg) (loop : g.Block) (solution : Solution g.toFlowGraph DefSet),
      Cfg.ofFunction? doublingTwice = .ok g
        ∧ g.solve (g.reachingDefinitions doublingTwice.params .kill) 3 = .ok solution
        ∧ { var := "x", site := .operation loop 1 } ∈ solution.top.get loop
        ∧ { var := "x", site := .operation loop 0 } ∉ solution.top.get loop
        ∧ { var := "x", site := .param } ∈ solution.top.get g.entry
        ∧ { var := "x", site := .param } ∉ solution.top.get loop := by
  have accepted : (Cfg.ofFunction? doublingTwice).toOption.any (fun g =>
      g.size == 2 && (g.body g.entry).map Operation.dest == [some "x"]
        && g.blocks.any fun loop => loop != g.entry && (g.succs loop).contains loop
          && (g.body loop).map Operation.dest == [some "x", some "x", none]) = true := by cbv
  obtain ⟨g, graph, accepted⟩ := exists_eq_ok_of_any accepted
  simp only [Bool.and_eq_true, beq_iff_eq, List.any_eq_true, bne_iff_ne, List.contains_iff_mem]
    at accepted
  obtain ⟨⟨size, start⟩, loop, -, ⟨other, around⟩, body⟩ := accepted
  obtain ⟨solution, solved⟩ :=
    Cfg.exists_solve_eq_ok (g.isUnion_reachingDefinitions doublingTwice.params .kill)
      (by omega : g.size + 1 ≤ 3)
  obtain ⟨operation, param, -⟩ := Cfg.reachingDefinitions_exact solved loop
  obtain ⟨-, paramAtStart, -⟩ := Cfg.reachingDefinitions_exact solved g.entry
  have declared : ∃ p ∈ doublingTwice.params, p.name = "x" := ⟨_, List.mem_singleton_self _, rfl⟩
  obtain ⟨first, second, third, ops, result, result', -⟩
      : ∃ first second third, g.body loop = [first, second, third]
          ∧ first.dest = some "x" ∧ second.dest = some "x" ∧ third.dest = none := by
    simpa [List.map_eq_cons_iff, and_assoc] using body
  refine ⟨g, loop, solution, graph, solved, ?second, ?first, ?start, ?loop⟩
  case second =>
    refine (operation loop 1 second "x" (by simp [ops]) result').mpr
      ⟨[], .step around (.stay _), ?_⟩
    simp [untouched_iff, body]
  case first =>
    rw [operation loop 0 first "x" (by simp [ops]) result]
    rintro ⟨left, -, spared⟩
    simpa [untouched_iff, body] using (spared rfl).1
  case start => exact (paramAtStart "x").mpr ⟨declared, [], .stay _, by simp⟩
  case loop =>
    rw [param]
    rintro ⟨-, left, walk, spared⟩
    cases walk with
    | stay => exact other rfl
    | step edge rest => simpa [untouched_iff, start] using spared rfl g.entry (by simp)

-----------------------------------------------------------------------------------------
-- Live variables
-----------------------------------------------------------------------------------------

namespace Cfg

/-- A walk leads from a block, through blocks that do not define the variable, to one that uses it
first, or to one that does not define it either and has a successor where a phi takes it on the edge
from there.
-/
def LeadsToUse (g : Cfg) (var : String) (b : g.Block) : Prop :=
  ∃ left c, g.Walk b left c ∧ (∀ d ∈ left, Untouched (g.body d) var)
    ∧ (UsedFirst (g.body c) var
      ∨ Untouched (g.body c) var
        ∧ ∃ s ∈ g.succs c, ∃ phi ∈ (g.content.get s).leadingPhis, (var, g.label c) ∈ phi.slots)

/-- Live variables are exact. A variable is live at the top of a block exactly when a walk from
there leads to a use of it before any definition.
-/
theorem liveVariables_exact {g : Cfg} {visits : Nat} {solution : Solution g.toFlowGraph NameSet}
    (solved : g.solve g.liveVariables visits = .ok solution) (b : g.Block) (var : String)
    : var ∈ solution.top.get b ↔ g.LeadsToUse var b := by
  have exact := mem_top_iff_of_backward g.isUnion_liveVariables rfl
    (fun c => g.treats_liveVariables c var) solved b
  have nothing : var ∉ g.liveVariables.boundary := Std.ExtTreeSet.not_mem_empty
  simp only [nothing, and_false, or_false, mem_edgeUses] at exact
  exact exact

end Cfg

/-- Prints a number for as long as a condition holds. The number is taken anew in each round. -/
def takingLoop : Function where
  name := "take"
  params := [{ name := "n", ty := .int }, { name := "c", ty := .bool }]
  body := [
    .label "start",
    .label "loop",
    .operation {
      opcode := .phi, dest := "i", ty := some .int, args := ["n", "n"],
      labels := ["start", "loop"] },
    .operation { opcode := .print, args := ["i"] },
    .operation { opcode := .br, args := ["c"], labels := ["done", "loop"] },
    .label "done",
    .operation { opcode := .ret }]

/-- The number is used on the edge that leads around the loop, so it is live at the top of it. What
the phi defines is not, though the loop uses it.
-/
theorem liveVariables_exact_takingLoop
    : ∃ (g : Cfg) (loop : g.Block) (solution : Solution g.toFlowGraph NameSet),
      Cfg.ofFunction? takingLoop = .ok g ∧ g.solve g.liveVariables 4 = .ok solution
        ∧ "n" ∈ solution.top.get loop ∧ "i" ∉ solution.top.get loop := by
  have accepted : (Cfg.ofFunction? takingLoop).toOption.any (fun g =>
      g.size == 3 && g.blocks.any fun loop => (g.succs loop).contains loop
        && (g.body loop).map Operation.dest == [some "i", none, none]
        && (g.body loop).head?.any Operation.isPhi
        && (g.content.get loop).leadingPhis.any fun phi => phi.slots.contains ("n", g.label loop))
      = true := by cbv
  obtain ⟨g, graph, accepted⟩ := exists_eq_ok_of_any accepted
  simp only [Bool.and_eq_true, beq_iff_eq, List.any_eq_true, List.contains_iff_mem]
    at accepted
  obtain ⟨size, loop, -, ⟨⟨around, body⟩, top⟩, phi, listed, slot⟩ := accepted
  obtain ⟨solution, solved⟩ :=
    Cfg.exists_solve_eq_ok g.isUnion_liveVariables (by omega : g.size + 1 ≤ 4)
  have exact := Cfg.liveVariables_exact solved loop
  refine ⟨g, loop, solution, graph, solved, (exact "n").mpr ?number, fun live => ?phi⟩
  case number =>
    refine ⟨[], loop, .stay _, by simp, .inr ⟨?_, loop, around, phi, listed, slot⟩⟩
    simp [untouched_iff, body]
  case phi =>
    have touched : ¬ Untouched (g.body loop) "i" := by simp [untouched_iff, body]
    obtain ⟨left, c, walk, spared, used⟩ := (exact "i").mp live
    cases walk with
    | step edge rest => exact touched (spared loop (by simp))
    | stay =>
        obtain ⟨index, op, found, noPhi, -, untouched⟩ :=
          used.resolve_right fun edge => touched edge.1
        cases index with
        | zero => simp_all [List.head?_eq_getElem?]
        | succ index =>
            rw [untouched_iff, List.map_take, body] at untouched
            simp at untouched

end ThreeAddress
