import ThreeAddress.Graph.Frontier
import ThreeAddress.Proofs.Graph.DominatorTree

/-! Dominance frontiers. A block is in the frontier of another when it is just beyond what that one
dominates: the other dominates a predecessor of it, but does not strictly dominate it.
-/

namespace ThreeAddress

/-- A walk up the tree from a block that ends in a block without immediate dominator. The list has
the blocks on the way, the last one included.
-/
inductive DomTree.WayUp {g : FlowGraph} (tree : DomTree g) : g.Block → List g.Block → Prop
  | top {b : g.Block} (root : tree.idom? b = none) : tree.WayUp b [b]
  | up {b parent : g.Block} {above : List g.Block} (next : tree.idom? b = some parent)
    (rest : tree.WayUp parent above)
    : tree.WayUp b (b :: above)

namespace FlowGraph

variable {g : FlowGraph}

/-- The first block dominates a predecessor of the second without strictly dominating the second. -/
def InFrontier (g : FlowGraph) (a b : g.Block) : Prop :=
  ¬ g.StrictlyPathDominates a b ∧ ∃ p, b ∈ g.succs p ∧ g.PathDominates a p

/-- The table that collects pairs has exactly these. -/
theorem contains_collect (pairs : List (g.Block × g.Block)) (table : BlockTable g) (a b : g.Block)
    : ((pairs.foldl (fun table (a, b) => updateAt table a ((table.get a).insert b)) table).get
        a).contains b = true
      ↔ (a, b) ∈ pairs ∨ (table.get a).contains b = true := by
  induction pairs generalizing table with
  | nil => simp
  | cons pair pairs ih =>
      obtain ⟨c, d⟩ := pair
      rw [List.foldl_cons, ih, get_updateAt, List.mem_cons]
      by_cases same : c = a
      · simp only [same, if_true, BlockSet.contains_insert, Bool.or_eq_true, decide_eq_true_eq,
          Prod.mk.injEq, true_and, Fin.ext_iff]
        grind
      · simp [same, Ne.symm same]

/-- The frontier of a block has the blocks it is paired with. -/
theorem contains_frontiers (tree : DomTree g) (a b : g.Block)
    : (tree.frontiers.get a).contains b = true ↔ (a, b) ∈ tree.frontierPairs := by
  have start : (Vector.replicate g.size BlockSet.empty).get a = .empty :=
    Vector.getElem_replicate a.isLt
  rw [DomTree.frontiers, contains_collect, start]
  simp

/-- The blocks on a way up in front of a given dominator are the dominators it strictly dominates:
the way is cut where that dominator stands, and levels tell on which side a block is. By induction
on the steps.
-/
theorem mem_takeWhile_chain {fuel : Nat} {a b d : g.Block} (reach : g.Reachable b)
    (enough : g.level b ≤ fuel + 1) (above : g.PathDominates d b)
    : a ∈ (g.domTree.chain fuel b).takeWhile (fun c => some c != some d)
      ↔ g.StrictlyPathDominates d a ∧ g.PathDominates a b := by
  induction fuel generalizing b with
  | zero =>
      have top : b = d := by
        have member := (mem_chain (a := d) reach enough).mpr above
        exact (List.mem_singleton.mp member).symm
      subst top
      have none : ¬ (g.StrictlyPathDominates b a ∧ g.PathDominates a b) :=
        fun ⟨strict, dom⟩ => strict.1 (strict.2.antisymm dom)
      simpa [DomTree.chain] using none
  | succ fuel ih =>
      rw [DomTree.chain]
      by_cases same : b = d
      · subst same
        have none : ¬ (g.StrictlyPathDominates b a ∧ g.PathDominates a b) :=
          fun ⟨strict, dom⟩ => strict.1 (strict.2.antisymm dom)
        simpa using none
      · have strict : g.StrictlyPathDominates d b := ⟨Ne.symm same, above⟩
        have other : b ≠ g.entry := fun eq => same ((eq ▸ above).eq_entry.trans eq.symm).symm
        obtain ⟨parent, immediate⟩ := reach.exists_idom other
        have lower := immediate.1.level_lt
        rw [idom?_domTree_eq_some.mpr immediate, List.takeWhile_cons, if_pos (by simpa using same),
          List.mem_cons, ih immediate.1.2.reachable (by omega) (immediate.2 d strict)]
        constructor
        · intro place
          rcases place with rfl | ⟨below, dom⟩
          · exact ⟨strict, .refl reach⟩
          · exact ⟨below, dom.trans immediate.1.2⟩
        · intro lower
          obtain ⟨below, dom⟩ := lower
          exact (dom.cases_idom immediate).imp_right fun dom => ⟨below, dom⟩

/-- The blocks passed from a predecessor of a block are the dominators of the predecessor that do
not strictly dominate the block: those below its immediate dominator.
-/
theorem mem_passed {a b d p : g.Block} (immediate : g.ImmediatelyDominates d b)
    (reach : g.Reachable p) (edge : b ∈ g.succs p)
    : a ∈ g.domTree.passed p b ↔ g.PathDominates a p ∧ ¬ g.StrictlyPathDominates a b := by
  have above : g.PathDominates d p := immediate.1.2.of_succ immediate.1.1 reach edge
  rw [DomTree.passed, idom?_domTree_eq_some.mpr immediate, DomTree.ancestors,
    mem_takeWhile_chain reach (Nat.le_succ_of_le (level_le p)) above]
  constructor
  · intro lower
    obtain ⟨below, dom⟩ := lower
    exact ⟨dom, fun strict => below.1 (below.2.antisymm (immediate.2 a strict))⟩
  · intro higher
    obtain ⟨dom, not⟩ := higher
    refine ⟨⟨fun same => not (same ▸ immediate.1), ?_⟩, dom⟩
    exact (above.total dom).resolve_right fun up => not (.trans_right up immediate.1)

/-- A block with a single predecessor is in no frontier: what dominates the predecessor dominates
the block, and the block does not dominate its only predecessor.
-/
theorem not_inFrontier_of_single {a b : g.Block} (reach : g.Reachable b) (other : b ≠ g.entry)
    (single : (g.preds b).length < 2)
    : ¬ g.InFrontier a b := by
  intro beyond
  obtain ⟨not, q, edgeQ, dom⟩ := beyond
  obtain ⟨p, -, edge, free⟩ := reach.exists_pred other
  have only : ∀ r, b ∈ g.succs r → r = p := by
    intro r edgeR
    have memberP : p ∈ g.preds b := (g.mem_preds b p).mpr edge
    have memberR : r ∈ g.preds b := (g.mem_preds b r).mpr edgeR
    match listed : g.preds b with
    | [] => simp [listed] at memberP
    | [s] =>
        rw [listed, List.mem_singleton] at memberP memberR
        exact memberR.trans memberP.symm
    | _ :: _ :: _ =>
        simp only [listed, List.length_cons] at single
        omega
  have fromP : g.PathDominates p b := by
    refine ⟨reach, fun left walk => ?_⟩
    rcases walk.last with ⟨-, same⟩ | ⟨before, r, rfl, -, edgeR⟩
    · exact absurd same.symm other
    · exact .inl (by simp [only r edgeR])
  rw [only q edgeQ] at dom
  have same : a = b := by
    apply Classical.byContradiction
    exact fun differs => not ⟨differs, dom.trans fromP⟩
  exact free (same ▸ dom)

/-- The computed frontiers are the frontiers, provided that no edge leads back to the entry. -/
theorem contains_frontiers_domTree (source : g.preds g.entry = []) (a b : g.Block)
    : (g.domTree.frontiers.get a).contains b = true ↔ g.InFrontier a b := by
  have paired
      : (a, b) ∈ g.domTree.frontierPairs
        ↔ g.Reachable b ∧ ¬ (g.preds b).length < 2
          ∧ ∃ p, (b ∈ g.succs p ∧ g.Reachable p) ∧ a ∈ g.domTree.passed p b := by
    have order (c : g.Block) : c ∈ g.domTree.order ↔ g.Reachable c := by
      rw [← mem_postOrder]
      exact List.mem_reverse
    simp only [DomTree.frontierPairs, List.mem_flatMap, order]
    constructor
    · intro found
      obtain ⟨c, reach, member⟩ := found
      split at member
      · simp at member
      · next several =>
          simp only [List.mem_flatMap, List.mem_filter, mem_preds, isReachable_domTree,
            List.mem_map, Prod.mk.injEq] at member
          obtain ⟨p, pred, d, passed, rfl, rfl⟩ := member
          exact ⟨reach, several, p, pred, passed⟩
    · intro join
      obtain ⟨reach, several, p, pred, passed⟩ := join
      refine ⟨b, reach, ?_⟩
      rw [if_neg several]
      refine List.mem_flatMap.mpr ⟨p, ?_, List.mem_map.mpr ⟨a, passed, rfl⟩⟩
      simpa using pred
  rw [contains_frontiers, paired]
  constructor
  · intro join
    obtain ⟨reach, several, p, ⟨edge, reachP⟩, passed⟩ := join
    have other : b ≠ g.entry := by
      intro same
      subst same
      simp [source] at several
    obtain ⟨d, immediate⟩ := reach.exists_idom other
    obtain ⟨dom, not⟩ := (mem_passed immediate reachP edge).mp passed
    exact ⟨not, p, edge, dom⟩
  · intro beyond
    obtain ⟨not, p, edge, dom⟩ := beyond
    have reach := dom.1.succ edge
    have other : b ≠ g.entry := by
      intro same
      subst same
      have listed := (g.mem_preds g.entry p).mpr edge
      simp [source] at listed
    obtain ⟨d, immediate⟩ := reach.exists_idom other
    refine ⟨reach, fun single => ?_, p, ⟨edge, dom.1⟩, ?_⟩
    · exact not_inFrontier_of_single reach other single ⟨not, p, edge, dom⟩
    · exact (mem_passed immediate dom.1 edge).mpr ⟨dom, not⟩

/-- A way up that is given as many steps as the block has dominators ends, by induction on the
steps: the immediate dominator has fewer.
-/
theorem wayUp_chain {fuel : Nat} {b : g.Block} (enough : g.level b ≤ fuel + 1)
    : g.domTree.WayUp b (g.domTree.chain fuel b) := by
  induction fuel generalizing b with
  | zero =>
      refine .top ?_
      rw [Option.eq_none_iff_forall_ne_some]
      intro d found
      have strict := (idom?_domTree_eq_some.mp found).1
      have lower := strict.level_lt
      have pos := level_pos strict.2.reachable
      omega
  | succ fuel ih =>
      rw [DomTree.chain]
      cases found : g.domTree.idom? b with
      | none => exact .top found
      | some d =>
          have lower := (idom?_domTree_eq_some.mp found).1.level_lt
          exact .up found (ih (by omega))

/-- The ancestors of a block are the blocks on its way up, which ends. -/
theorem wayUp_ancestors (b : g.Block) : g.domTree.WayUp b (g.domTree.ancestors b) :=
  wayUp_chain (Nat.le_succ_of_le (level_le b))

/-- Where no edge leads to the entry, the computed frontiers are exact: a block is in the frontier
of another when that one does not strictly dominate it but dominates one of its predecessors. The
ways up the tree that they are computed from all end.
-/
theorem frontiers_exact_and_ways_up_end (source : g.preds g.entry = [])
    : (∀ m n : g.Block, (g.domTree.frontiers.get m).contains n = true
        ↔ ¬ g.StrictlyPathDominates m n ∧ ∃ p ∈ g.preds n, g.PathDominates m p)
      ∧ ∀ b, g.domTree.WayUp b (g.domTree.ancestors b) := by
  refine ⟨fun m n => ?_, wayUp_ancestors⟩
  rw [contains_frontiers_domTree source, InFrontier]
  simp only [mem_preds]

/-- Each of the two blocks of the loop is in the frontier of the other one, while the block behind
them is in its own only, although three edges lead to it.
-/
theorem frontiers_exact_and_ways_up_end_irreducibleLoop
    : irreducibleLoop.preds 3 = [2, 3, 4]
      ∧ (¬ irreducibleLoop.StrictlyPathDominates 1 2
        ∧ ∃ p ∈ irreducibleLoop.preds 2, irreducibleLoop.PathDominates 1 p)
      ∧ (¬ irreducibleLoop.StrictlyPathDominates 3 3
        ∧ ∃ p ∈ irreducibleLoop.preds 3, irreducibleLoop.PathDominates 3 p)
      ∧ ¬ (¬ irreducibleLoop.StrictlyPathDominates 2 3
        ∧ ∃ p ∈ irreducibleLoop.preds 3, irreducibleLoop.PathDominates 2 p)
      ∧ irreducibleLoop.domTree.WayUp 3 [3, 2, 0] := by
  have source : irreducibleLoop.preds irreducibleLoop.entry = [] := by decide
  obtain ⟨exact, ends⟩ := frontiers_exact_and_ways_up_end source
  have away
      : (irreducibleLoop.domTree.frontiers.get 2).contains (3 : irreducibleLoop.Block) = false := by
    cbv
  have way : irreducibleLoop.domTree.ancestors 3 = [3, 2, 0] := by cbv
  refine ⟨by decide, (exact 1 2).mp (by cbv), (exact 3 3).mp (by cbv), ?_, way ▸ ends 3⟩
  rw [← exact 2 3, away]
  exact Bool.false_ne_true

end FlowGraph

end ThreeAddress
