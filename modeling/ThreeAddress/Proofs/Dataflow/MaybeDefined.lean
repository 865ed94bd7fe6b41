import ThreeAddress.Proofs.Dataflow.AlongWalks
import ThreeAddress.Proofs.Graph.Joins

/-! Variables that may have been defined before control comes to a block. They are those that some
definition reaches the block for: a definition that is lost on the way is replaced by another one.
-/

namespace ThreeAddress

-----------------------------------------------------------------------------------------
-- Definitions ahead of a block
-----------------------------------------------------------------------------------------

namespace FlowGraph

variable {g : FlowGraph} {a b c : g.Block}

/-- A walk of one edge or more leads from one block to another. -/
def Precedes (g : FlowGraph) (a b : g.Block) : Prop :=
  ∃ left, g.Walk a left b ∧ left ≠ []

theorem Precedes.trans (first : g.Precedes a b) (second : g.Precedes b c) : g.Precedes a c := by
  obtain ⟨left, walk, moves⟩ := first
  obtain ⟨right, further, -⟩ := second
  exact ⟨left ++ right, walk.append further, by simp [moves]⟩

theorem PathDominates.precedes (dom : g.PathDominates a b) (edge : c ∈ g.succs b)
    : g.Precedes a c := by
  obtain ⟨left, walk, -⟩ := dom.exists_dominated_walk
  exact ⟨left ++ [b], walk.snoc edge, by simp⟩

theorem InFrontier.precedes (beyond : g.InFrontier a b) : g.Precedes a b := by
  obtain ⟨-, p, edge, dom⟩ := beyond
  exact dom.precedes edge

theorem StrictlyPathDominates.precedes (strict : g.StrictlyPathDominates a b)
    : g.Precedes a b := by
  obtain ⟨left, walk, -⟩ := strict.2.exists_dominated_walk
  refine ⟨left, walk, ?_⟩
  rintro rfl
  cases walk
  exact strict.1 rfl

end FlowGraph

namespace Cfg

variable {g : Cfg} {params : List Param} {var : String} {b : g.Block}

/-- A variable may have been defined before control comes to a block: it is a parameter, or some
walk leads there from a block that defines it.
-/
def MaybeDefined (g : Cfg) (params : List Param) (var : String) (b : g.Block) : Prop :=
  (∃ p ∈ params, p.name = var)
    ∨ ∃ c, var ∈ (g.body c).filterMap Operation.dest ∧ g.Precedes c b

theorem MaybeDefined.of_precedes {a : g.Block} (defined : g.MaybeDefined params var a)
    (ahead : g.Precedes a b)
    : g.MaybeDefined params var b :=
  defined.imp_right fun ⟨c, result, walk⟩ => ⟨c, result, walk.trans ahead⟩

-----------------------------------------------------------------------------------------
-- Definitions that reach a block
-----------------------------------------------------------------------------------------

/-- Some definition of a variable reaches a position of a block exactly when an operation in front
of the position defines it, or some definition reaches the top. By induction on the position.
-/
theorem exists_mem_defsBefore {top : DefSet} {index : Nat} (inside : index ≤ (g.body b).length)
    : (∃ d ∈ g.defsBefore .kill b top index, d.var = var)
      ↔ var ∈ ((g.body b).take index).filterMap Operation.dest ∨ ∃ d ∈ top, d.var = var := by
  induction index with
  | zero => simp [defsBefore]
  | succ index ih =>
      have found := List.getElem?_eq_getElem inside
      generalize (g.body b)[index] = op at found
      rw [List.take_add_one, found, Option.toList_some, List.filterMap_append, List.mem_append]
      simp only [mem_defsBefore_succ found]
      by_cases result : op.dest = some var
      · have here : { var, site := .operation b index : Definition }.var = var := rfl
        refine iff_of_true ⟨{ var, site := .operation b index }, ?_, here⟩ ?_
        · rw [if_pos result]
        · simp [result]
      · have unchanged (d : Definition)
            : (if op.dest = some d.var then d.site = .operation b index
                else d ∈ g.defsBefore .kill b top index) ∧ d.var = var
              ↔ d ∈ g.defsBefore .kill b top index ∧ d.var = var := by
          apply and_congr_left
          rintro rfl
          rw [if_neg result]
        simp only [unchanged, ih (by omega)]
        simp [result]

variable {visits : Nat} {solution : Solution g.toFlowGraph DefSet}

/-- Along a walk some definition keeps reaching: one that is lost is replaced by another one. By
induction on the walk.
-/
theorem exists_mem_top_of_walk
    (solved : g.solve (g.reachingDefinitions params .kill) visits = .ok solution)
    {a : g.Block} {left : List g.Block} (walk : g.Walk a left b) (moves : left ≠ [])
    (start : var ∈ (g.body a).filterMap Operation.dest ∨ ∃ d ∈ solution.top.get a, d.var = var)
    : ∃ d ∈ solution.top.get b, d.var = var := by
  induction walk with
  | stay => exact absurd rfl moves
  | @step a next b left edge rest ih =>
      have atEnd : ∃ d ∈ solution.bottom.get a, d.var = var := by
        rw [bottom_eq_of_solve solved, reachingAt, exists_mem_defsBefore (Nat.le_refl _),
          List.take_length]
        exact start
      obtain ⟨d, reaches, same⟩ := atEnd
      have atTop : ∃ d ∈ solution.top.get next, d.var = var :=
        ⟨d, (mem_top_of_solve solved).mpr (.inl ⟨a, (g.mem_preds next a).mpr edge, reaches⟩), same⟩
      cases rest with
      | stay => exact atTop
      | step edge rest => exact ih (by simp) (.inr atTop)

/-- Some definition of a variable reaches the top of a block exactly when the variable may have been
defined on the way there.
-/
theorem exists_mem_top_iff (reach : g.Reachable b)
    (solved : g.solve (g.reachingDefinitions params .kill) visits = .ok solution)
    : (∃ d ∈ solution.top.get b, d.var = var) ↔ g.MaybeDefined params var b := by
  constructor
  · rintro ⟨d, reaches, rfl⟩
    rcases (mem_top_reachingDefinitions_iff solved).mp reaches with
      ⟨c, index, op, found, result, -, left, walk, -⟩ | ⟨⟨-, param⟩, -⟩
    · refine .inr ⟨c, List.mem_filterMap.mpr ⟨op, List.mem_of_getElem? found, result⟩, ?_⟩
      exact ⟨c :: left, walk, by simp⟩
    · exact .inl param
  · rintro (param | ⟨c, result, left, walk, moves⟩)
    · have atEntry : ∃ d ∈ solution.top.get g.entry, d.var = var :=
        ⟨{ var, site := .param },
          (mem_top_of_solve solved).mpr (.inr ⟨rfl, mem_paramDefs.mpr ⟨rfl, param⟩⟩), rfl⟩
      obtain ⟨left, walk⟩ := reach
      cases walk with
      | stay => exact atEntry
      | step edge rest =>
          exact exists_mem_top_of_walk solved (.step edge rest) (by simp) (.inr atEntry)
    · exact exists_mem_top_of_walk solved walk moves (.inl result)

end Cfg

end ThreeAddress
