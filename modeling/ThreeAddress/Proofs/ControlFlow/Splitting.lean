import ThreeAddress.Proofs.ControlFlow.EdgeOrder
import ThreeAddress.Proofs.ControlFlow.Rebuilding
import ThreeAddress.Proofs.ControlFlow.WellFormed

/-! Splitting a function into blocks and writing the blocks out again agree: the flat body of the
graph is that of the function with the label of its entry, and the graph of this body is the same
again, without an entry block that has to be added.
-/

namespace ThreeAddress

/-- With its own operations in its blocks a graph is the same, but all of it is written. -/
theorem Cfg.withBodies_body (g : Cfg)
    : g.withBodies g.body = { g with hasAddedEntry := false } := by
  have content : g.rebuilt g.body = g.content := by
    apply Vector.ext
    intro b inside
    exact get_rebuilt g.body ⟨b, inside⟩
  rw [withBodies, content]

namespace Function

variable {f : Function} {allow : Bool} {g : Cfg}

/-- The written function needs no entry block if all branches go to declared labels. -/
theorem needsEntry_toBody (ok : Cfg.ofFunction? f allow = .ok g) (declared : f.BranchesDeclared)
    : ({ f with body := g.toBody } : Function).needsEntry = false := by
  have body : g.toBody = f.entryBody := (entryBody_eq_assemble ok).symm
  have operations : ({ f with body := g.toBody } : Function).operations = f.operations :=
    (g.operations_assemble g.body).trans (operations_eq_flatMap ok).symm
  obtain ⟨rest, starts⟩ := entryBody_eq ok
  have first : ({ f with body := g.toBody } : Function).firstLabel? = some (g.label g.entry) := by
    rw [firstLabel?, body, starts]
    rfl
  rw [needsEntry, first, operations, List.any_eq_false]
  intro op member
  rw [List.contains_iff_mem]
  exact entry_not_target ok declared op member

/-- Splitting writes the label of an added entry, and what it gives is the flat body of the graph,
whose edges are those that the ends of its blocks tell, in order. The graph of the flat body is the
graph again, with all its blocks written.
-/
theorem split_agrees_with_toBody (ok : Cfg.ofFunction? f allow = .ok g)
    (declared : f.BranchesDeclared)
    : f.split allow = .ok ({ f with body := g.toBody }, g) ∧ g.EdgesInOrder
      ∧ Cfg.ofFunction? { f with body := g.toBody } allow
        = .ok { g with hasAddedEntry := false } := by
  have proper := Cfg.proper_of_ok ok
  have split : f.split allow = .ok ({ f with body := g.toBody }, g) := by
    rw [split_of_ok ok, entryBody_eq_assemble ok]
    rfl
  have again : Cfg.ofFunction? { f with body := g.toBody } allow = .ok (g.withBodies g.body) :=
    Cfg.ofFunction?_withBodies g.body ok rfl rfl (needsEntry_toBody ok declared) (fun _ => rfl)
      proper.terminator_last
  exact ⟨split, proper.edgesInOrder, Cfg.withBodies_body g ▸ again⟩

end Function

/-- A loop back to the first label, by way of a branch that goes to one label in both cases and of a
block that nothing ends.
-/
def loopToFirstLabel : Function where
  name := "f"
  params := [{ name := "c", ty := .bool }]
  body := [
    .label "entry",
    .operation { opcode := .br, args := ["c"], labels := ["next", "next"] },
    .label "next",
    .operation { opcode := .print, args := ["c"] },
    .label "back",
    .operation { opcode := .jmp, labels := ["entry"] }]

/-- The added entry is called `entry.1`. It is written when the function is split, the branch is one
edge, and the first label has two predecessors, also in the graph of the split function.
-/
theorem split_agrees_with_toBody_loopToFirstLabel
    : ∃ g, Cfg.ofFunction? loopToFirstLabel = .ok g ∧ loopToFirstLabel.BranchesDeclared
      ∧ loopToFirstLabel.split
        = .ok ({ loopToFirstLabel with body := .label "entry.1" :: loopToFirstLabel.body }, g)
      ∧ g.blocks.map (fun b => (g.preds b).map g.label)
        = [[], ["entry.1", "back"], ["entry"], ["next"]]
      ∧ g.EdgesInOrder
      ∧ Cfg.ofFunction? { loopToFirstLabel with body := .label "entry.1" :: loopToFirstLabel.body }
        = .ok { g with hasAddedEntry := false } := by
  have accepted : (Cfg.ofFunction? loopToFirstLabel).toOption.any (fun g =>
      g.toBody == .label "entry.1" :: loopToFirstLabel.body
        && g.blocks.map (fun b => (g.preds b).map g.label)
          == [[], ["entry.1", "back"], ["entry"], ["next"]]) = true := by cbv
  obtain ⟨g, ok, computed⟩ := exists_eq_ok_of_any accepted
  simp only [Bool.and_eq_true, beq_iff_eq] at computed
  obtain ⟨body, preds⟩ := computed
  have declared : loopToFirstLabel.BranchesDeclared := by
    unfold Function.BranchesDeclared
    decide
  obtain ⟨split, edges, again⟩ := Function.split_agrees_with_toBody ok declared
  rw [body] at split again
  exact ⟨g, ok, declared, split, preds, edges, again⟩

end ThreeAddress
