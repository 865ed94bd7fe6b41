import ThreeAddress.Dataflow.NameSet
import ThreeAddress.Program.Function

/-! Dead code elimination on the flat body: operations that control never comes to, pure
operations whose destination nothing uses, and pure definitions that the same block overwrites
before it uses them.
-/

namespace ThreeAddress

/-- The variables that some operation of a body uses. -/
def usedNames (body : List Instruction) : NameSet :=
  .ofList ((body.filterMap Instruction.operation?).flatMap (·.args))

/-- Up to the next label, the variable is defined before it is used. -/
def isOverwritten (var : String) : List Instruction → Bool
  | .operation op :: rest =>
    if op.args.contains var then false
    else op.dest == some var || isOverwritten var rest
  | _ => false

/-- An operation only computes a variable that nothing uses, or that the operations after it
define again first.
-/
def Operation.isDead (op : Operation) (used : NameSet) (rest : List Instruction) : Bool :=
  match op.dest with
  | some var => op.opcode.isPure && (!used.contains var || isOverwritten var rest)
  | none => false

/-- Removes what is dead with respect to the body as it stands. The flag tells whether control
cannot come to the next operation because the block has ended.
-/
def removeDead (used : NameSet) : Bool → List Instruction → List Instruction
  | _, [] => []
  | _, .label name :: rest => .label name :: removeDead used false rest
  | ended, .operation op :: rest =>
    let kept := removeDead used (ended || op.isTerminator) rest
    if ended || op.isDead used rest then kept else .operation op :: kept

/-- One round of removals, all judged on the same body. -/
def removalRound (body : List Instruction) : List Instruction :=
  removeDead (usedNames body) false body

/-- Rounds of removals until one removes nothing. -/
def eliminateDead (body : List Instruction) : List Instruction :=
  let next := removalRound body
  if next.length < body.length then eliminateDead next else body
termination_by body.length

/-- Dead code elimination of a function. The flag tells whether anything was removed. -/
def Function.eliminateDead (f : Function) : Function × Bool :=
  let body := ThreeAddress.eliminateDead f.body
  ({ f with body }, body.length < f.body.length)

end ThreeAddress
