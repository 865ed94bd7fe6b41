import ThreeAddress.Proofs.Execution.RemovalStep
import ThreeAddress.Proofs.Simplify.Cleanup

/-! Dead code elimination preserves executions: whatever an accepted function shows without getting
stuck, the function shows after elimination too, in no more steps.
-/

namespace ThreeAddress

variable {V : Type}

-----------------------------------------------------------------------------------------
-- One round
-----------------------------------------------------------------------------------------

namespace Function

/-- A round of removals keeps a label in front. -/
theorem body_afterRound {f : Function} {name : String} {rest : List Instruction}
    (shape : f.body = .label name :: rest)
    : f.afterRound.body = .label name :: removeDead (usedNames f.body) false rest := by
  rw [afterRound, removalRound]
  nth_rewrite 2 [shape]
  rw [removeDead]

/-- A body that starts with a label needs an added entry before a round of removals exactly when it
does after it.
-/
theorem needsEntry_afterRound {f : Function} (last : TerminatorsLast f.body) {name : String}
    {rest : List Instruction} (shape : f.body = .label name :: rest)
    : f.afterRound.needsEntry = f.needsEntry := by
  have labelled : f.firstLabel?.isSome = true := by
    rw [firstLabel?, shape]
    rfl
  exact f.rewrites_afterRound.needsEntry_eq (keepsEnds_sweep _) last labelled

/-- A call starts by entering the entry block. -/
theorem start_eq {f : Function} {name : String} {rest : List Instruction}
    (shape : f.entryBody = .label name :: rest) (I : Interpretation V) (args : List V)
    : f.start I args
      = enterBlock none name rest (Env.bindParams I.undef (fun _ => I.undef) f.params args) [] := by
  rw [start, shape]

/-- The start of the shortened function follows that of the original. If the original has an added
entry and the shortened function has none, then everything in front of the first label was dead.
-/
theorem start_follows {f : Function} (good : Removable f.body) (I : Interpretation V)
    (args : List V) (unstuck : (f.start I args).status ≠ .stuck)
    : Follows f.body (f.start I args) (f.afterRound.start I args) := by
  have last := good.terminatorsLast
  cases added : f.needsEntry with
  | true =>
      have entry : f.entryBody = .label f.freshEntryLabel :: f.body := by
        rw [entryBody, if_pos added]
      rw [start_eq entry] at unstuck ⊢
      cases added' : f.afterRound.needsEntry with
      | true =>
          have entry' : f.afterRound.entryBody = .label f.freshEntryLabel :: f.afterRound.body := by
            rw [entryBody, if_pos added', f.rewrites_afterRound.freshEntryLabel_eq]
          rw [start_eq entry']
          exact enterBlock_follows last (List.suffix_refl _) good.phisLead.weaken (fun _ => rfl)
            (fun _ _ => rfl) unstuck
      | false =>
          obtain ⟨name, rest, shape⟩ := exists_label_of_not_needsEntry added'
          have none : containsPhi f.body = false := by
            rcases good.labelled with none | ⟨name, rest, labelled⟩
            · exact none
            · rw [needsEntry_afterRound last labelled, added] at added'
              exact absurd added' (by simp)
          have none' : containsPhi f.afterRound.body = false := by
            rw [containsPhi_eq_false] at none ⊢
            exact fun op member => none op ((mem_removeDead last).1 member)
          have behind : rest <:+ f.afterRound.body := shape ▸ List.suffix_cons _ _
          have entry' : f.afterRound.entryBody = .label name :: rest := by
            rw [entryBody, added', if_neg (by simp), shape]
          rw [start_eq entry', enterBlock_of_not_containsPhi (List.suffix_refl f.body) none,
            enterBlock_of_not_containsPhi behind none']
          exact .running {
            suffix := List.suffix_refl _
            block := by simp [none]
            rest := .inr ⟨none, name, shape⟩
            env := fun _ _ => rfl
            trace := rfl
          }
  | false =>
      obtain ⟨name, rest, shape⟩ := exists_label_of_not_needsEntry added
      have entry : f.entryBody = .label name :: rest := by
        rw [entryBody, added, if_neg (by simp), shape]
      have entry' : f.afterRound.entryBody
          = .label name :: removeDead (usedNames f.body) false rest := by
        rw [entryBody, needsEntry_afterRound last shape, added, if_neg (by simp),
          body_afterRound shape]
      have suffix : .label name :: rest <:+ f.body := shape ▸ List.suffix_refl _
      rw [start_eq entry] at unstuck ⊢
      rw [start_eq entry']
      exact enterBlock_follows last ((List.suffix_cons _ _).trans suffix)
        (good.phisLead.of_suffix suffix) (fun _ => rfl) (fun _ _ => rfl) unstuck

/-- After every number of steps that leave the original unstuck, the shortened function follows
after no more steps. By induction on the steps.
-/
theorem run_follows {f : Function} (good : Removable f.body) (I : Interpretation V)
    (args : List V) (n : Nat) (unstuck : (f.run I args n).status ≠ .stuck)
    : ∃ m ≤ n, Follows f.body (f.run I args n) (f.afterRound.run I args m) := by
  induction n with
  | zero => exact ⟨0, Nat.le_refl 0, start_follows good I args unstuck⟩
  | succ n ih =>
      rw [run] at unstuck ⊢
      have before : (f.run I args n).status ≠ .stuck := by
        intro stuck
        cases point : f.run I args n with
        | running state => simp [point, Execution.status] at stuck
        | finished trace => simp [point, Execution.status] at stuck
        | stuck trace => simp [point, Interpretation.advance, Execution.status] at unstuck
      obtain ⟨m, le, follows⟩ := ih before
      cases reached : f.afterRound.run I args m with
      | running state' =>
          rw [reached] at follows
          generalize f.run I args n = point at follows unstuck
          cases follows with
          | running trails =>
              rcases step_follows good trails unstuck with follows | follows
              · exact ⟨m, Nat.le_succ_of_le le, reached ▸ follows⟩
              · refine ⟨m + 1, Nat.succ_le_succ le, ?_⟩
                rw [run, reached]
                exact follows
      | finished trace =>
          rw [reached] at follows
          generalize f.run I args n = point at follows
          cases follows
          refine ⟨m, Nat.le_succ_of_le le, ?_⟩
          rw [reached]
          exact .finished trace
      | stuck trace =>
          rw [reached] at follows
          generalize f.run I args n = point at follows
          cases follows

end Function

/-- Executions that belong together have shown the same and stand alike. -/
theorem Follows.observe {body : List Instruction} {left right : Execution V}
    (follows : Follows body left right)
    : right.trace = left.trace ∧ right.status = left.status := by
  cases follows with
  | running trails => exact ⟨trails.trace.symm, rfl⟩
  | finished trace => exact ⟨rfl, rfl⟩

-----------------------------------------------------------------------------------------
-- All rounds
-----------------------------------------------------------------------------------------

/-- Rounds of removals preserve what is shown, by induction on the rounds. -/
theorem eliminateDead_observe (f : Function) {body : List Instruction} (good : Removable body)
    (I : Interpretation V) (args : List V) (n : Nat)
    (unstuck : ({ f with body }.run I args n).status ≠ .stuck)
    : ∃ m ≤ n,
        ({ f with body := eliminateDead body }.run I args m).trace
            = ({ f with body }.run I args n).trace
          ∧ ({ f with body := eliminateDead body }.run I args m).status
            = ({ f with body }.run I args n).status := by
  fun_induction eliminateDead body generalizing n with
  | case1 body next shorter ih =>
      obtain ⟨m, le, follows⟩ := Function.run_follows (f := { f with body }) good I args n unstuck
      obtain ⟨shown, stands⟩ := follows.observe
      obtain ⟨k, le', shown', stands'⟩ := ih good.removalRound m (by
        rw [← stands] at unstuck
        exact unstuck)
      exact ⟨k, Nat.le_trans le' le, shown'.trans shown, stands'.trans stands⟩
  | case2 body next same => exact ⟨n, Nat.le_refl n, rfl, rfl⟩

-----------------------------------------------------------------------------------------
-- Accepted functions
-----------------------------------------------------------------------------------------

/-- Phis stand at the top of blocks put together, if they do in each. -/
theorem phisLead_flatMap {blocks : List BasicBlock}
    (good : ∀ block ∈ blocks, ∀ op ∈ block.body.dropWhile Operation.isPhi, op.isPhi = false)
    (top : Bool)
    : PhisLead top (blocks.flatMap BasicBlock.flatten) := by
  have ofRest {ops : List Operation} {tail : List Instruction}
      (good : ∀ op ∈ ops, op.isPhi = false) (lead : ∀ top, PhisLead top tail)
      : PhisLead false (ops.map .operation ++ tail) := by
    induction ops with
    | nil => exact lead false
    | cons op ops ih =>
        refine ⟨fun phi => ?_, by simpa using ih fun other member => good other (by simp [member])⟩
        rw [good op (by simp)] at phi
        exact phi
  have ofBody {ops : List Operation} {tail : List Instruction}
      (good : ∀ op ∈ ops.dropWhile Operation.isPhi, op.isPhi = false)
      (lead : ∀ top, PhisLead top tail)
      : PhisLead true (ops.map .operation ++ tail) := by
    induction ops with
    | nil => exact lead true
    | cons op ops ih =>
        cases phi : op.isPhi with
        | true =>
            rw [List.dropWhile_cons_of_pos phi] at good
            exact ⟨fun _ => rfl, by simpa [phi] using ih good⟩
        | false =>
            rw [List.dropWhile_cons_of_neg (by simp [phi])] at good
            exact (ofRest good lead).weaken
  induction blocks generalizing top with
  | nil => trivial
  | cons block blocks ih =>
      rw [List.flatMap_cons]
      exact ofBody (good block (by simp)) (ih fun other member => good other (by simp [member]))

namespace Function

/-- Phis stand only at the top of blocks. -/
def PhisAtTop (f : Function) : Prop :=
  ∀ block ∈ f.layout, ∀ op ∈ block.body.dropWhile Operation.isPhi, op.isPhi = false

/-- The body of an accepted function is as removal expects it. -/
theorem removable_of_ok {f : Function} {allow : Bool} {g : Cfg}
    (ok : Cfg.ofFunction? f allow = .ok g)
    (phis : f.hasPhi = false ∨ f.firstLabel?.isSome = true ∧ f.PhisAtTop)
    : Removable f.body := by
  obtain ⟨-, fault, -⟩ := Cfg.ofFunction?_eq_ok.mp ok
  have whole := terminatorsLast_flatMap.mpr fun block member =>
    ((layoutFault?_eq_none.mp fault).2 block member).2
  rw [flatMap_flatten_layout, entryBody] at whole
  have last : TerminatorsLast f.body := by
    split at whole <;> exact whole
  rcases phis with none | ⟨labelled, lead⟩
  · exact ⟨phisLead_of_not_containsPhi none, last, .inl none⟩
  · obtain ⟨name, rest, shape⟩ := exists_label_of_firstLabel? labelled
    have wholeLead := phisLead_flatMap lead false
    rw [flatMap_flatten_layout, entryBody] at wholeLead
    refine ⟨?_, last, .inr ⟨name, rest, shape⟩⟩
    split at wholeLead
    · rw [shape] at wholeLead ⊢
      exact wholeLead
    · exact wholeLead

/-- Dead code elimination preserves what an accepted function shows. Whenever the function gets
through some number of steps without being stuck, the shortened function has shown the same after
no more steps, and is under way or finished just as the function is.
-/
theorem eliminateDead_preserves_runs {f : Function} {allow : Bool} {g : Cfg}
    (ok : Cfg.ofFunction? f allow = .ok g)
    (phis : f.hasPhi = false ∨ f.firstLabel?.isSome = true ∧ f.PhisAtTop)
    (I : Interpretation V) (args : List V) (n : Nat) (unstuck : (f.run I args n).status ≠ .stuck)
    : ∃ m ≤ n,
        (f.eliminateDead.1.run I args m).trace = (f.run I args n).trace
          ∧ (f.eliminateDead.1.run I args m).status = (f.run I args n).status :=
  eliminateDead_observe f (removable_of_ok ok phis) I args n unstuck

end Function

/-- A loop with a phi that counts and prints, behind a definition that is overwritten and a copy
that nothing uses.
-/
def countingLoop : Function where
  name := "count"
  params := [{ name := "step", ty := .int }]
  body := [
    .label "start",
    .operation { opcode := .const, dest := "x", ty := some .int, value := some (.int 7) },
    .operation { opcode := .const, dest := "x", ty := some .int, value := some (.int 1) },
    .operation { opcode := .id, dest := "unused", ty := some .int, args := ["x"] },
    .label "loop",
    .operation
      { opcode := .phi, dest := "i", ty := some .int, args := ["x", "j"],
        labels := ["start", "loop"] },
    .operation { opcode := .add, dest := "j", ty := some .int, args := ["i", "step"] },
    .operation { opcode := .print, args := ["j"] },
    .operation { opcode := .br, args := ["j"], labels := ["loop", "done"] },
    .label "done",
    .operation { opcode := .ret, args := ["j"] }]

/-- The counting loop is accepted, runs twice and returns; so does what is left of it. -/
theorem eliminateDead_preserves_runs_countingLoop
    : (Cfg.ofFunction? countingLoop).isOk = true
      ∧ (countingLoop.run .sums [1] 12).status = .finished
      ∧ ∃ m ≤ 12,
          (countingLoop.eliminateDead.1.run .sums [1] m).trace
              = (countingLoop.run .sums [1] 12).trace
            ∧ (countingLoop.eliminateDead.1.run .sums [1] m).status
              = (countingLoop.run .sums [1] 12).status := by
  have accepted : (Cfg.ofFunction? countingLoop).isOk = true := by cbv
  have finished : (countingLoop.run .sums [1] 12).status = .finished := by cbv
  have tops : countingLoop.PhisAtTop := by
    unfold Function.PhisAtTop
    decide
  refine ⟨accepted, finished, ?_⟩
  obtain ⟨g, ok⟩ := exists_eq_ok_of_isOk accepted
  exact Function.eliminateDead_preserves_runs ok (.inr ⟨rfl, tops⟩) .sums [1] 12
    (by rw [finished]; decide)

end ThreeAddress
