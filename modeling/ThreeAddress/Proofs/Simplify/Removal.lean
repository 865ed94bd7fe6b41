import ThreeAddress.Proofs.Execution.Machine
import ThreeAddress.Simplify.DeadCode

/-! What a round of dead code removal leaves in place: labels, everything that is not pure, and the
shape of blocks.
-/

namespace ThreeAddress

/-- Phis stand only at the top of blocks. The flag tells whether this is the top of one. -/
def PhisLead : Bool → List Instruction → Prop
  | _, [] => True
  | _, .label _ :: rest => PhisLead true rest
  | top, .operation op :: rest =>
    (op.isPhi = true → top = true) ∧ PhisLead (top && op.isPhi) rest

/-- Some operation is a phi. -/
def containsPhi (body : List Instruction) : Bool :=
  (body.filterMap Instruction.operation?).any Operation.isPhi

/-- A body as removal expects it: phis at block tops, nothing behind what ends a block, and a label
in front if there are phis, which may refer to it.
-/
structure Removable (body : List Instruction) : Prop where
  phisLead : PhisLead false body
  terminatorsLast : TerminatorsLast body
  labelled : containsPhi body = false ∨ ∃ name rest, body = .label name :: rest

/-- A place where phis may stand is no restriction. -/
theorem PhisLead.weaken {body : List Instruction} {top : Bool} (lead : PhisLead false body)
    : PhisLead top body := by
  induction body generalizing top with
  | nil => trivial
  | cons instruction rest ih =>
      cases instruction with
      | label name => exact lead
      | operation op =>
          obtain ⟨notPhi, tail⟩ := lead
          exact ⟨fun phi => absurd (notPhi phi) (by simp), ih (by simpa using tail)⟩

/-- Where no phi may stand, none leads. -/
theorem leadingPhis_eq_nil {body : List Instruction} (lead : PhisLead false body)
    : leadingPhis body = [] ∧ afterPhis body = body := by
  match body with
  | [] => exact ⟨rfl, rfl⟩
  | .label name :: rest => exact ⟨rfl, rfl⟩
  | .operation op :: rest =>
      have notPhi : op.isPhi = false := by
        simpa using mt lead.1
      simp [leadingPhis, afterPhis, notPhi]

/-- Without phis there is nothing to restrict. -/
theorem phisLead_of_not_containsPhi {body : List Instruction} (none : containsPhi body = false)
    : PhisLead false body := by
  induction body with
  | nil => trivial
  | cons instruction rest ih =>
      cases instruction with
      | label name => exact (ih none).weaken
      | operation op =>
          simp only [containsPhi, List.filterMap_cons, Instruction.operation?, List.any_cons,
            Bool.or_eq_false_iff] at none
          refine ⟨fun phi => ?_, by simpa using ih none.2⟩
          rw [none.1] at phi
          exact phi

/-- The used names are the arguments of the operations. -/
theorem contains_usedNames {body : List Instruction} {var : String}
    : (usedNames body).contains var = true ↔ ∃ op, .operation op ∈ body ∧ var ∈ op.args := by
  simp only [usedNames, Std.ExtTreeSet.contains_ofList, List.contains_iff_mem, List.mem_flatMap,
    List.mem_filterMap]
  constructor
  · intro used
    obtain ⟨op, ⟨instruction, member, found⟩, arg⟩ := used
    cases instruction with
    | label name => simp [Instruction.operation?] at found
    | operation other =>
        obtain rfl := Option.some.inj found
        exact ⟨other, member, arg⟩
  · intro used
    obtain ⟨op, member, arg⟩ := used
    exact ⟨op, ⟨_, member, rfl⟩, arg⟩

-----------------------------------------------------------------------------------------
-- Removal, instruction by instruction
-----------------------------------------------------------------------------------------

/-- Where a block starts it does not matter whether the one before has ended. -/
theorem removeDead_startsBlock {used : NameSet} {ended : Bool} {body : List Instruction}
    (starts : StartsBlock body)
    : removeDead used ended body = removeDead used false body := by
  match body with
  | [] => simp [removeDead]
  | .label name :: rest => simp [removeDead]
  | .operation op :: rest => simp [StartsBlock, Instruction.operation?] at starts

/-- With nothing behind what ends a block, an operation is removed exactly when it is dead. -/
theorem removeDead_operation {used : NameSet} {op : Operation} {rest : List Instruction}
    (last : TerminatorsLast (.operation op :: rest))
    : removeDead used false (.operation op :: rest)
      = if op.isDead used rest then removeDead used false rest
        else .operation op :: removeDead used false rest := by
  have tail : removeDead used op.isTerminator rest = removeDead used false rest := by
    cases ends : op.isTerminator with
    | true => exact removeDead_startsBlock (last.1 ends)
    | false => rfl
  simp only [removeDead, Bool.false_or, tail]

/-- What is dead is pure. -/
theorem Operation.isPure_of_isDead {op : Operation} {used : NameSet} {rest : List Instruction}
    (dead : op.isDead used rest = true)
    : op.opcode.isPure = true := by
  rw [isDead] at dead
  split at dead
  · exact (Bool.and_eq_true_iff.mp dead).1
  · simp at dead

/-- What ends a block is not pure. -/
theorem Opcode.not_isPure_of_isTerminator {code : Opcode} (ends : code.isTerminator = true)
    : code.isPure = false := by
  cases code <;> simp_all [isTerminator, isPure, isArithmetic, isComparison, isLogic]

/-- A pure operation does not end its block. -/
theorem Operation.isTerminator_of_isPure {op : Operation} (pure : op.opcode.isPure = true)
    : op.isTerminator = false := by
  cases ends : op.isTerminator with
  | false => rfl
  | true => exact absurd pure (by simp [Opcode.not_isPure_of_isTerminator ends])

/-- A branch ends its block. -/
theorem Opcode.isTerminator_of_isBranch {code : Opcode} (branch : code.isBranch = true)
    : code.isTerminator = true := by
  cases code <;> simp_all [isTerminator, isBranch]

/-- Where a block starts, one starts after removal. -/
theorem StartsBlock.removeDead {used : NameSet} {body : List Instruction}
    (starts : StartsBlock body)
    : StartsBlock (removeDead used false body) := by
  match body with
  | [] => simp [ThreeAddress.removeDead, StartsBlock]
  | .label name :: rest => simp [ThreeAddress.removeDead, StartsBlock, Instruction.operation?]
  | .operation op :: rest => simp [StartsBlock, Instruction.operation?] at starts

/-- Removal puts nothing behind what ends a block, by induction on the body. -/
theorem TerminatorsLast.removeDead {used : NameSet} {body : List Instruction}
    (last : TerminatorsLast body)
    : TerminatorsLast (removeDead used false body) := by
  induction body with
  | nil => trivial
  | cons instruction rest ih =>
      cases instruction with
      | label name =>
          rw [ThreeAddress.removeDead]
          exact ih last
      | operation op =>
          rw [removeDead_operation last]
          split
          · exact ih last.2
          · exact ⟨fun ends => (last.1 ends).removeDead, ih last.2⟩

/-- Removal keeps phis at the top of blocks, by induction on the body. -/
theorem PhisLead.removeDead {used : NameSet} {body : List Instruction} {top : Bool}
    (lead : PhisLead top body) (last : TerminatorsLast body)
    : PhisLead top (removeDead used false body) := by
  induction body generalizing top with
  | nil => trivial
  | cons instruction rest ih =>
      cases instruction with
      | label name =>
          rw [ThreeAddress.removeDead]
          exact ih lead last
      | operation op =>
          have tail := ih lead.2 last.2
          rw [removeDead_operation last]
          split
          · cases top with
            | true =>
                cases phi : op.isPhi with
                | true => simpa [phi] using tail
                | false =>
                    rw [phi] at tail
                    exact tail.weaken
            | false => simpa using tail
          · exact ⟨lead.1, tail⟩

/-- Only operations that are dead disappear, so others stay, by induction on the body. -/
theorem mem_removeDead {used : NameSet} {body : List Instruction} (last : TerminatorsLast body)
    {op : Operation}
    : (.operation op ∈ removeDead used false body → .operation op ∈ body)
      ∧ (op.opcode.isPure = false → .operation op ∈ body
          → .operation op ∈ removeDead used false body) := by
  induction body with
  | nil => exact ⟨id, fun _ => id⟩
  | cons instruction rest ih =>
      cases instruction with
      | label name =>
          rw [removeDead]
          simpa using ih last
      | operation other =>
          obtain ⟨old, kept⟩ := ih last.2
          rw [removeDead_operation last]
          split
          · next dead =>
              refine ⟨fun member => List.mem_cons_of_mem _ (old member), fun impure member => ?_⟩
              rcases List.mem_cons.mp member with same | member
              · have pure := Operation.isPure_of_isDead dead
                rw [← Instruction.operation.inj same, impure] at pure
                exact absurd pure (by simp)
              · exact kept impure member
          · simp only [List.mem_cons]
            exact ⟨fun member => member.imp_right old,
              fun impure member => member.imp_right (kept impure)⟩

/-- Removal works on what follows a label by itself, by induction on the body. -/
theorem afterLabel?_removeDead {used : NameSet} {label : String} {body : List Instruction}
    (last : TerminatorsLast body)
    : afterLabel? label (removeDead used false body)
      = (afterLabel? label body).map (removeDead used false) := by
  induction body with
  | nil => rfl
  | cons instruction rest ih =>
      cases instruction with
      | label name =>
          rw [removeDead, afterLabel?, afterLabel?]
          split
          · rfl
          · exact ih last
      | operation op =>
          rw [removeDead_operation last, afterLabel?]
          split
          · exact ih last.2
          · exact ih last.2

/-- An operation is a phi of the body exactly when it stands in it. -/
theorem containsPhi_eq_false {body : List Instruction}
    : containsPhi body = false ↔ ∀ op, .operation op ∈ body → op.isPhi = false := by
  simp only [containsPhi, List.any_eq_false, List.mem_filterMap, Bool.not_eq_true]
  constructor
  · intro none op member
    exact none op ⟨_, member, rfl⟩
  · intro none op listed
    obtain ⟨instruction, member, found⟩ := listed
    cases instruction with
    | label name => simp [Instruction.operation?] at found
    | operation other =>
        obtain rfl := Option.some.inj found
        exact none _ member

/-- A round of removals leaves a body as removal expects it. -/
theorem Removable.removalRound {body : List Instruction} (good : Removable body)
    : Removable (removalRound body) where
  phisLead := good.phisLead.removeDead good.terminatorsLast
  terminatorsLast := good.terminatorsLast.removeDead
  labelled := by
    rcases good.labelled with none | ⟨name, rest, shape⟩
    · rw [containsPhi_eq_false] at none
      refine .inl (containsPhi_eq_false.mpr fun op member => none op ?_)
      exact (mem_removeDead good.terminatorsLast).1 member
    · refine .inr ⟨name, removeDead (usedNames body) false rest, ?_⟩
      rw [ThreeAddress.removalRound]
      nth_rewrite 2 [shape]
      rw [ThreeAddress.removeDead]

-----------------------------------------------------------------------------------------
-- A function after a round
-----------------------------------------------------------------------------------------

namespace Function

/-- The operations of a function are those in its body. -/
theorem mem_operations {f : Function} {op : Operation}
    : op ∈ f.operations ↔ .operation op ∈ f.body := by
  simp only [operations, List.mem_filterMap]
  constructor
  · intro listed
    obtain ⟨instruction, member, found⟩ := listed
    cases instruction with
    | label name => simp [Instruction.operation?] at found
    | operation other => exact Option.some.inj found ▸ member
  · exact fun member => ⟨_, member, rfl⟩

/-- The function after one round of removals. -/
def afterRound (f : Function) : Function :=
  { f with body := removalRound f.body }

end Function

end ThreeAddress
