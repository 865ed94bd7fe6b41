import ThreeAddress.Failure
import ThreeAddress.Program.Function

/-! The layout of a function: its flat body divided into blocks, with an entry block that no
branch names put in front where the body does not start with one.
-/

namespace ThreeAddress

/-- A label and the operations up to the next label. -/
structure BasicBlock where
  label : String
  body : List Operation
deriving DecidableEq, Repr

namespace BasicBlock

/-- The operation that ends the block, if its last one does. -/
def terminator? (block : BasicBlock) : Option Operation :=
  block.body.getLast?.filter Operation.isTerminator

/-- The phis at the top of the block. -/
def leadingPhis (block : BasicBlock) : List Operation :=
  block.body.takeWhile Operation.isPhi

/-- The block as a piece of a flat body. -/
def flatten (block : BasicBlock) : List Instruction :=
  .label block.label :: block.body.map .operation

end BasicBlock

/-- Divides a body at its labels: the operations before the first label, and the blocks. -/
def divide : List Instruction → List Operation × List BasicBlock
  | [] => ([], [])
  | .operation op :: rest =>
    let (lead, blocks) := divide rest
    (op :: lead, blocks)
  | .label label :: rest =>
    let (lead, blocks) := divide rest
    ([], { label, body := lead } :: blocks)

namespace Function

/-- The label the body starts with. -/
def firstLabel? (f : Function) : Option String :=
  f.body.head?.bind Instruction.label?

/-- The body does not start with a label, or some branch goes to its first label. -/
def needsEntry (f : Function) : Bool :=
  match f.firstLabel? with
  | some label => f.operations.any fun op => op.branchTargets.contains label
  | none => true

/-- The label of an entry block that has to be added: `entry`, or the first of `entry.1`,
`entry.2`, … when that is declared. One of as many candidates as there are labels is free.
-/
def freshEntryLabel (f : Function) : String :=
  let candidates := (List.range' 1 f.labels.length).map fun n => s!"entry.{n}"
  (("entry" :: candidates).find? fun label => !f.labels.contains label).getD ""

/-- The blocks of a function in the order they are written. -/
def layout (f : Function) : List BasicBlock :=
  let parts := divide f.body
  if f.needsEntry then { label := f.freshEntryLabel, body := parts.1 } :: parts.2 else parts.2

/-- There is always an entry block. -/
theorem layout_ne_nil (f : Function) : f.layout ≠ [] := by
  rcases hb : f.body with _ | ⟨_ | _, rest⟩ <;>
    simp [layout, hb, needsEntry, firstLabel?, divide, Instruction.label?]
  split <;> simp

/-- The first fault of a layout: a label that an earlier block has, or an operation after one
that ends its block.
-/
def layoutFault? (seen : List String) : List BasicBlock → Option LayoutFault
  | [] => none
  | block :: rest =>
    if seen.contains block.label then some (.duplicateLabel block.label)
    else if block.body.dropLast.any Operation.isTerminator then
      some (.afterTerminator block.label)
    else layoutFault? (block.label :: seen) rest

end Function

end ThreeAddress
