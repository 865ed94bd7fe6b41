import ThreeAddress.Proofs.Simplify.Removal

/-! What the operations behind the end of a block do to dead code elimination, although control
never comes to them. They keep nothing, but they count as overwriting: a definition goes when only
they define its variable again.
-/

namespace ThreeAddress

-----------------------------------------------------------------------------------------
-- Bodies without dead tails
-----------------------------------------------------------------------------------------

/-- The body without what follows the end of a block, and without the operations that are picked by
themselves and what follows them. The flag tells whether the block has ended.
-/
def prune (drop : Operation → List Instruction → Bool) : Bool → List Instruction → List Instruction
  | _, [] => []
  | _, .label name :: rest => .label name :: prune drop false rest
  | ended, .operation op :: rest =>
    let kept := prune drop (ended || op.isTerminator) rest
    if ended || drop op rest then kept else .operation op :: kept

/-- The body without dead tails: nothing else is picked. -/
def dropTails : Bool → List Instruction → List Instruction :=
  prune fun _ _ => false

/-- The operations that control may come to, each with what follows it. The flag tells whether the
block has ended.
-/
def executable : Bool → List Instruction → List (Operation × List Instruction)
  | _, [] => []
  | _, .label _ :: rest => executable false rest
  | ended, .operation op :: rest =>
    let later := executable (ended || op.isTerminator) rest
    if ended then later else (op, rest) :: later

/-- Up to the next label, the variable is not used before a definition in the dead tail. The flag
tells whether the block has ended.
-/
def isOverwrittenInTail (var : String) : Bool → List Instruction → Bool
  | ended, .operation op :: rest =>
    if op.args.contains var then false
    else ended && op.dest == some var || isOverwrittenInTail var (ended || op.isTerminator) rest
  | _, _ => false

/-- A pure operation computes a variable that the dead tail of its block overwrites. -/
def Operation.isOverwrittenInTail (op : Operation) (rest : List Instruction) : Bool :=
  op.opcode.isPure && op.dest.any fun var => ThreeAddress.isOverwrittenInTail var false rest

namespace Function

/-- The function without the operations that follow the end of a block. -/
def withoutTails (f : Function) : Function :=
  { f with body := dropTails false f.body }

/-- The function without dead tails and without the definitions that these overwrite. -/
def withoutOverwrittenInTails (f : Function) : Function :=
  { f with body := prune Operation.isOverwrittenInTail false f.body }

/-- No dead tail overwrites a definition in front of it that nothing in front of it overwrites,
unless no operation that control may come to uses the variable.
-/
def TailsSpare (f : Function) : Prop :=
  ∀ step ∈ executable false f.body, ∀ var ∈ step.1.dest,
    step.1.opcode.isPure = true → isOverwritten var step.2 = true
      → isOverwritten var (dropTails false step.2) = true
        ∨ (usedNames f.withoutTails.body).contains var = false

end Function

variable {drop : Operation → List Instruction → Bool} {used used' : NameSet}
  {body kept rest : List Instruction} {var : String}

/-- Behind the end of a block, pruning leads to the next block. -/
theorem startsBlock_prune (body : List Instruction) : StartsBlock (prune drop true body) := by
  induction body with
  | nil => rfl
  | cons instruction rest ih =>
      cases instruction with
      | label name => rfl
      | operation op => simpa [prune] using ih

/-- Pruning leaves nothing behind the end of a block. -/
theorem terminatorsLast_prune (ended : Bool) (body : List Instruction)
    : TerminatorsLast (prune drop ended body) := by
  induction body generalizing ended with
  | nil => trivial
  | cons instruction rest ih =>
      cases instruction with
      | label name => exact ih false
      | operation op =>
          simp only [prune]
          split
          · exact ih _
          · refine ⟨fun ends => ?_, ih _⟩
            simp only [ends, Bool.or_true]
            exact startsBlock_prune rest

/-- Pruning only removes. -/
theorem prune_sublist (ended : Bool) (body : List Instruction)
    : (prune drop ended body).Sublist body := by
  induction body generalizing ended with
  | nil => exact .slnil
  | cons instruction rest ih =>
      cases instruction with
      | label name => exact .cons_cons _ (ih false)
      | operation op =>
          simp only [prune]
          split
          · exact .cons _ (ih _)
          · exact .cons_cons _ (ih _)

/-- Removal prunes what is dead. -/
theorem removeDead_eq_prune (used : NameSet) (ended : Bool) (body : List Instruction)
    : removeDead used ended body = prune (·.isDead used ·) ended body := by
  induction body generalizing ended with
  | nil => rfl
  | cons instruction rest ih =>
      cases instruction with
      | label name => exact congrArg _ (ih false)
      | operation op => simp only [removeDead, prune, ih]

/-- Fewer instructions use fewer names. -/
theorem contains_usedNames_mono (fewer : kept.Sublist body)
    (known : (usedNames kept).contains var = true)
    : (usedNames body).contains var = true := by
  obtain ⟨op, member, arg⟩ := contains_usedNames.mp known
  exact contains_usedNames.mpr ⟨op, fewer.subset member, arg⟩

/-- A dead operation is dead with respect to fewer names, in front of operations that overwrite its
variable if those do that it stands in front of.
-/
theorem Operation.isDead_of_isDead {op : Operation}
    (fewer : ∀ var, used'.contains var = true → used.contains var = true)
    (covered
      : ∀ var, op.dest = some var → used'.contains var = true
          → isOverwritten var body = true → isOverwritten var kept = true)
    (dead : op.isDead used body = true)
    : op.isDead used' kept = true := by
  cases dest : op.dest with
  | none => simp [isDead, dest] at dead
  | some var =>
      simp only [isDead, dest, Bool.and_eq_true, Bool.or_eq_true, Bool.not_eq_true'] at dead ⊢
      refine ⟨dead.1, ?_⟩
      cases known : used'.contains var with
      | false => exact .inl rfl
      | true =>
          exact .inr (covered var dest known (dead.2.resolve_left (by simp [fewer var known])))

-----------------------------------------------------------------------------------------
-- The order of removals does not matter
-----------------------------------------------------------------------------------------

/-- The second body is the first without some of the operations that are dead in it. -/
inductive Trims (used : NameSet) : List Instruction → List Instruction → Prop
  | nil : Trims used [] []
  | label {body kept : List Instruction} (name : String) (rest : Trims used body kept)
    : Trims used (.label name :: body) (.label name :: kept)
  | keep {body kept : List Instruction} (op : Operation) (rest : Trims used body kept)
    : Trims used (.operation op :: body) (.operation op :: kept)
  | drop {body kept : List Instruction} (op : Operation) (dead : op.isDead used body = true)
    (rest : Trims used body kept)
    : Trims used (.operation op :: body) kept

namespace Trims

/-- Trimming only removes. -/
theorem sublist (trims : Trims used body kept) : kept.Sublist body := by
  induction trims with
  | nil => exact .slnil
  | label name _ ih => exact .cons_cons _ ih
  | keep op _ ih => exact .cons_cons _ ih
  | drop op _ _ ih => exact .cons _ ih

/-- Where a block starts, one starts after trimming. -/
theorem startsBlock (trims : Trims used body kept) (starts : StartsBlock body)
    : StartsBlock kept := by
  cases trims with
  | nil => rfl
  | label name _ => rfl
  | keep op _ => simp [StartsBlock, Instruction.operation?] at starts
  | drop op _ _ => simp [StartsBlock, Instruction.operation?] at starts

/-- Trimming puts nothing behind the end of a block. -/
theorem terminatorsLast (trims : Trims used body kept) (last : TerminatorsLast body)
    : TerminatorsLast kept := by
  induction trims with
  | nil => trivial
  | label name _ ih => exact ih last
  | keep op rest ih => exact ⟨fun ends => rest.startsBlock (last.1 ends), ih last.2⟩
  | drop op _ _ ih => exact ih last.2

/-- A used variable that is overwritten is still overwritten after trimming: what has been dropped
on the way to the next use, and defined the variable, was itself overwritten.
-/
theorem isOverwritten (trims : Trims used body kept) (known : used.contains var = true)
    (covered : isOverwritten var body = true)
    : isOverwritten var kept = true := by
  induction trims with
  | nil => exact covered
  | label name _ _ => exact covered
  | keep op _ ih =>
      simp only [ThreeAddress.isOverwritten] at covered ⊢
      split at covered
      · exact absurd covered (by simp)
      · next unused =>
          rw [if_neg unused]
          simp only [Bool.or_eq_true] at covered ⊢
          exact covered.imp_right ih
  | drop op dead _ ih =>
      simp only [ThreeAddress.isOverwritten] at covered
      split at covered
      · exact absurd covered (by simp)
      · simp only [Bool.or_eq_true, beq_iff_eq] at covered
        rcases covered with dest | later
        · simp only [Operation.isDead, dest, known, Bool.not_true, Bool.false_or,
            Bool.and_eq_true] at dead
          exact ih dead.2
        · exact ih later

/-- What is dead before trimming is dead after it, if names fall out of use. -/
theorem isDead (trims : Trims used body kept)
    (fewer : ∀ var, used'.contains var = true → used.contains var = true) {op : Operation}
    (dead : op.isDead used body = true)
    : op.isDead used' kept = true :=
  Operation.isDead_of_isDead fewer
    (fun var _ known covered => trims.isOverwritten (fewer var known) covered) dead

/-- A round on the longer body trims the shorter one. -/
theorem removeDead (trims : Trims used body kept) (last : TerminatorsLast body)
    (fewer : ∀ var, used'.contains var = true → used.contains var = true)
    : Trims used' kept (removeDead used false body) := by
  induction trims with
  | nil => exact .nil
  | label name _ ih => exact .label name (ih last)
  | keep op rest ih =>
      rw [removeDead_operation last]
      split
      · next dead => exact .drop op (rest.isDead fewer dead) (ih last.2)
      · exact .keep op (ih last.2)
  | drop op dead _ ih =>
      rw [removeDead_operation last, if_pos dead]
      exact ih last.2

end Trims

/-- A round only removes. -/
theorem removalRound_sublist (body : List Instruction) : (removalRound body).Sublist body := by
  rw [removalRound, removeDead_eq_prune]
  exact prune_sublist false body

/-- A round that removes nothing leaves the body as it is. -/
theorem removalRound_eq_of_length_le (same : body.length ≤ (removalRound body).length)
    : removalRound body = body :=
  (removalRound_sublist body).eq_of_length_le same

/-- The first round may be done in advance. -/
theorem eliminateDead_removalRound (body : List Instruction)
    : eliminateDead (removalRound body) = eliminateDead body := by
  conv => rhs; unfold eliminateDead
  simp only
  split
  · rfl
  · next same =>
      have stable := removalRound_eq_of_length_le (Nat.le_of_not_lt same)
      rw [stable]
      unfold eliminateDead
      rw [stable]
      simp

/-- Removing some of what is dead in advance does not change what is left in the end. By induction
on the lengths of both bodies: a round on the longer one trims the shorter one.
-/
theorem eliminateDead_eq_of_trims (trims : Trims (usedNames body) body kept)
    (last : TerminatorsLast body)
    : eliminateDead kept = eliminateDead body := by
  induction size : body.length + kept.length using Nat.strongRecOn generalizing body kept with
  | ind n ih =>
      have next : Trims (usedNames kept) kept (removalRound body) :=
        trims.removeDead last fun var => contains_usedNames_mono trims.sublist
      by_cases shorter : (removalRound body).length < body.length
      · rw [← eliminateDead_removalRound body]
        exact (ih _ (by omega) next (trims.terminatorsLast last) rfl).symm
      · have stable := removalRound_eq_of_length_le (Nat.le_of_not_lt shorter)
        have more := stable ▸ next.sublist
        rw [trims.sublist.antisymm more]

-----------------------------------------------------------------------------------------
-- What dead tails decide
-----------------------------------------------------------------------------------------

/-- What a dead tail overwrites is overwritten, by induction on what follows. -/
theorem isOverwritten_of_inTail {ended : Bool} (covered : isOverwrittenInTail var ended rest = true)
    : isOverwritten var rest = true := by
  induction rest generalizing ended with
  | nil => simp [isOverwrittenInTail] at covered
  | cons instruction rest ih =>
      cases instruction with
      | label name => simp [isOverwrittenInTail] at covered
      | operation op =>
          simp only [isOverwrittenInTail, isOverwritten] at covered ⊢
          split at covered
          · exact absurd covered (by simp)
          · next unused =>
              rw [if_neg unused]
              simp only [Bool.or_eq_true, Bool.and_eq_true] at covered ⊢
              exact covered.imp And.right ih

/-- What is overwritten, but not by a dead tail, is still overwritten without dead tails and the
definitions that these overwrite: if the first definition went, then a dead tail overwrote its
variable. By induction on what follows.
-/
theorem isOverwritten_prune {ended : Bool} (covered : isOverwritten var rest = true)
    (spared : isOverwrittenInTail var ended rest = false)
    : isOverwritten var (prune Operation.isOverwrittenInTail ended rest) = true := by
  induction rest generalizing ended with
  | nil => simp [isOverwritten] at covered
  | cons instruction rest ih =>
      cases instruction with
      | label name => simp [isOverwritten] at covered
      | operation op =>
          simp only [isOverwritten, isOverwrittenInTail] at covered spared
          split at covered
          · exact absurd covered (by simp)
          · next unused =>
              simp only [if_neg unused, Bool.or_eq_false_iff] at spared
              simp only [Bool.or_eq_true, beq_iff_eq] at covered
              have kept : op.dest = some var → (ended || op.isOverwrittenInTail rest) = false := by
                intro dest
                have running : ended = false := by
                  simpa [dest] using spared.1
                cases pure : op.opcode.isPure with
                | false => simp [running, Operation.isOverwrittenInTail, pure]
                | true =>
                    have inner := Operation.isTerminator_of_isPure pure
                    have later : isOverwrittenInTail var false rest = false := by
                      simpa [running, inner] using spared.2
                    simp [running, Operation.isOverwrittenInTail, dest, later]
              simp only [prune]
              split
              · next gone =>
                  have later := covered.resolve_left fun dest => by simp [kept dest] at gone
                  exact ih later spared.2
              · simp only [isOverwritten, if_neg unused, Bool.or_eq_true, beq_iff_eq]
                exact covered.imp_right fun later => ih later spared.2

/-- A definition that a dead tail overwrites is dead. -/
theorem Operation.isDead_of_inTail {op : Operation} (covered : op.isOverwrittenInTail rest = true)
    : op.isDead used rest = true := by
  simp only [isOverwrittenInTail, Bool.and_eq_true, Option.any_eq_true] at covered
  obtain ⟨pure, var, dest, covered⟩ := covered
  simp [isDead, dest, pure, isOverwritten_of_inTail covered]

/-- A round removes dead tails and what they overwrite and, besides, only what is dead without
these. By induction on the body.
-/
theorem trims_removeDead (fewer : ∀ var, used'.contains var = true → used.contains var = true)
    (ended : Bool) (body : List Instruction)
    : Trims used' (prune Operation.isOverwrittenInTail ended body)
        (removeDead used ended body) := by
  induction body generalizing ended with
  | nil => exact .nil
  | cons instruction rest ih =>
      cases instruction with
      | label name => exact .label name (ih false)
      | operation op =>
          simp only [prune, removeDead]
          cases ended with
          | true => exact ih true
          | false =>
              simp only [Bool.false_or]
              cases covered : op.isOverwrittenInTail rest with
              | true =>
                  rw [if_pos rfl, if_pos (Operation.isDead_of_inTail covered)]
                  exact ih _
              | false =>
                  rw [if_neg Bool.false_ne_true]
                  split
                  · next dead =>
                      refine .drop op (Operation.isDead_of_isDead fewer ?_ dead) (ih _)
                      intro var dest _ here
                      have pure := Operation.isPure_of_isDead dead
                      rw [Operation.isTerminator_of_isPure pure]
                      refine isOverwritten_prune here ?_
                      simpa [Operation.isOverwrittenInTail, pure, dest] using covered
                  · exact .keep op (ih _)

/-- Where dead tails spare what is used, the definitions that they overwrite are dead without
them. By induction on the body.
-/
theorem trims_dropTails {ended : Bool} {body : List Instruction}
    (spare
      : ∀ step ∈ executable ended body, ∀ var ∈ step.1.dest,
          step.1.opcode.isPure = true → isOverwritten var step.2 = true
            → isOverwritten var (dropTails false step.2) = true ∨ used.contains var = false)
    : Trims used (dropTails ended body) (prune Operation.isOverwrittenInTail ended body) := by
  induction body generalizing ended with
  | nil => exact .nil
  | cons instruction rest ih =>
      cases instruction with
      | label name => exact .label name (ih spare)
      | operation op =>
          simp only [dropTails, prune]
          cases ended with
          | true => exact ih spare
          | false =>
              simp only [executable, Bool.false_or, Bool.false_eq_true, if_false,
                List.forall_mem_cons] at spare ⊢
              split
              · next covered =>
                  have dead : op.isDead used rest = true := Operation.isDead_of_inTail covered
                  refine .drop op (Operation.isDead_of_isDead (fun _ => id) ?_ dead) (ih spare.2)
                  intro var dest known here
                  have pure := Operation.isPure_of_isDead dead
                  rw [Operation.isTerminator_of_isPure pure]
                  exact (spare.1 var dest pure here).resolve_right (by simp [known])
              · exact .keep op (ih spare.2)

namespace Function

/-- Dead tails decide what dead code elimination removes only by overwriting. What it makes of a
function is what it makes of the function without dead tails and without the definitions that
these overwrite; and if dead tails overwrite nothing that is used, then it is what it makes of the
function without dead tails.
-/
theorem eliminateDead_withoutTails (f : Function)
    : f.eliminateDead.1 = f.withoutOverwrittenInTails.eliminateDead.1
      ∧ (f.TailsSpare → f.eliminateDead.1 = f.withoutTails.eliminateDead.1) := by
  have round
      : ThreeAddress.eliminateDead (removalRound f.body)
        = ThreeAddress.eliminateDead f.withoutOverwrittenInTails.body := by
    have fewer : f.withoutOverwrittenInTails.body.Sublist f.body := prune_sublist false f.body
    exact eliminateDead_eq_of_trims
      (trims_removeDead (fun var => contains_usedNames_mono fewer) false f.body)
      (terminatorsLast_prune false f.body)
  have law : ThreeAddress.eliminateDead f.body
      = ThreeAddress.eliminateDead f.withoutOverwrittenInTails.body :=
    (eliminateDead_removalRound f.body).symm.trans round
  refine ⟨congrArg (fun body => { f with body }) law, fun spare => ?_⟩
  have same : ThreeAddress.eliminateDead f.withoutOverwrittenInTails.body
      = ThreeAddress.eliminateDead f.withoutTails.body :=
    eliminateDead_eq_of_trims (trims_dropTails spare) (terminatorsLast_prune false f.body)
  exact congrArg (fun body => { f with body }) (law.trans same)

end Function

/-- A dead tail that uses a variable before it overwrites it, and overwrites another that nothing
else uses.
-/
def sparingTail : Function where
  name := "f"
  body := [
    .label "entry",
    .operation { opcode := .const, dest := "a", ty := some .int, value := some (.int 1) },
    .operation { opcode := .const, dest := "b", ty := some .int, value := some (.int 2) },
    .operation { opcode := .jmp, labels := ["next"] },
    .operation { opcode := .id, dest := "b", ty := some .int, args := ["a"] },
    .operation { opcode := .const, dest := "a", ty := some .int, value := some (.int 3) },
    .label "next",
    .operation { opcode := .print, args := ["a"] }]

/-- The dead tail decides nothing. -/
theorem eliminateDead_sparingTail
    : sparingTail.TailsSpare
      ∧ sparingTail.eliminateDead.1 = sparingTail.withoutTails.eliminateDead.1 := by
  have spare : sparingTail.TailsSpare := by
    unfold Function.TailsSpare
    decide +kernel
  exact ⟨spare, (Function.eliminateDead_withoutTails sparingTail).2 spare⟩

/-- A definition that another block uses and that only a dead tail overwrites. -/
def overwritingTail : Function where
  name := "f"
  body := [
    .label "entry",
    .operation { opcode := .const, dest := "a", ty := some .int, value := some (.int 1) },
    .operation { opcode := .jmp, labels := ["next"] },
    .operation { opcode := .const, dest := "a", ty := some .int, value := some (.int 2) },
    .label "next",
    .operation { opcode := .print, args := ["a"] }]

/-- The definition is removed because of the dead tail, and kept without it. -/
theorem eliminateDead_overwritingTail
    : overwritingTail.eliminateDead.1.body
        = [.label "entry", .operation { opcode := .jmp, labels := ["next"] }, .label "next",
            .operation { opcode := .print, args := ["a"] }]
      ∧ overwritingTail.withoutTails.eliminateDead.1.body = overwritingTail.withoutTails.body
      ∧ overwritingTail.eliminateDead.1 ≠ overwritingTail.withoutTails.eliminateDead.1 := by
  have lost
      : overwritingTail.eliminateDead.1.body
        = [.label "entry", .operation { opcode := .jmp, labels := ["next"] }, .label "next",
            .operation { opcode := .print, args := ["a"] }] := by
    cbv
  have kept
      : overwritingTail.withoutTails.eliminateDead.1.body = overwritingTail.withoutTails.body := by
    cbv
  refine ⟨lost, kept, fun same => ?_⟩
  have bodies := lost.symm.trans ((congrArg Function.body same).trans kept)
  exact absurd bodies (by decide)

end ThreeAddress
