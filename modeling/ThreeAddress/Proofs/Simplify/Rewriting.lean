import ThreeAddress.Proofs.ControlFlow.Rebuilding
import ThreeAddress.Proofs.ControlFlow.WellFormed
import ThreeAddress.Proofs.Simplify.Removal

/-! Functions that are rewritten block by block. A change to the operations of blocks that keeps how
the blocks end keeps the control flow graph, apart from an added entry block that it leaves without
operations: that block may go.
-/

namespace ThreeAddress

-----------------------------------------------------------------------------------------
-- Blocks
-----------------------------------------------------------------------------------------

namespace BasicBlock

/-- The block with its operations changed. -/
def rewrite (change : List Operation → List Operation) (block : BasicBlock) : BasicBlock :=
  { block with body := change block.body }

/-- Only the last operation ends the block. -/
def Straight (block : BasicBlock) : Prop :=
  ∀ op ∈ block.body.dropLast, op.isTerminator = false

/-- What ends a straight block is the operation in it that ends a block. -/
theorem Straight.exit?_eq_some {block : BasicBlock} (straight : block.Straight)
    {exit : Opcode × List String}
    : block.exit? = some exit
      ↔ ∃ op ∈ block.body, op.isTerminator = true ∧ (op.opcode, op.labels) = exit := by
  simp only [exit?, terminator?, Option.map_eq_some_iff, Option.filter_eq_some_iff]
  constructor
  · rintro ⟨op, ⟨last, ends⟩, rfl⟩
    exact ⟨op, List.mem_of_getLast? last, ends, rfl⟩
  · rintro ⟨op, member, ends, rfl⟩
    obtain ⟨front, last, shape⟩ :=
      (List.eq_nil_or_concat block.body).resolve_left (List.ne_nil_of_mem member)
    rw [List.concat_eq_append] at shape
    have inner : op ∉ front := fun inside => by
      have open' := straight op (by simpa [shape] using inside)
      exact absurd (ends.symm.trans open') (by simp)
    obtain rfl : op = last := by simpa [shape, inner] using member
    exact ⟨op, ⟨by simp [shape], ends⟩, rfl⟩

end BasicBlock

/-- A change to the operations of blocks that keeps how they end, and gives a block without
operations none.
-/
structure KeepsEnds (change : List Operation → List Operation) : Prop where
  nil : change [] = []
  straight {block : BasicBlock} : block.Straight → (block.rewrite change).Straight
  exit {block : BasicBlock} : block.Straight → (block.rewrite change).exit? = block.exit?

namespace Function

/-- The operations in front of the first label, as the entry block that would be added. -/
def lead (f : Function) : BasicBlock :=
  { label := f.freshEntryLabel, body := (divide f.body).1 }

/-- The operations in front of the first label as a block, and the blocks. -/
def pieces (f : Function) : List BasicBlock :=
  f.lead :: (divide f.body).2

/-- Some operation ends a block in this way. -/
def HasExit (f : Function) (exit : Opcode × List String) : Prop :=
  ∃ op ∈ f.operations, op.isTerminator = true ∧ (op.opcode, op.labels) = exit

variable {f : Function}

/-- The operations of the pieces are those of the function. -/
theorem flatMap_body_pieces (f : Function)
    : f.pieces.flatMap BasicBlock.body = f.operations := by
  have lead : ((divide f.body).1.map .operation).filterMap Instruction.operation?
      = (divide f.body).1 := by
    rw [List.filterMap_map]
    exact List.filterMap_some
  have whole := congrArg (List.filterMap Instruction.operation?) (divide_flatten f.body)
  rw [List.filterMap_append, List.filterMap_flatMap, funext BasicBlock.operations_flatten,
    lead] at whole
  exact whole

/-- The declared labels are those of the blocks. -/
theorem labels_eq_map_label (f : Function) : f.labels = (divide f.body).2.map BasicBlock.label := by
  have lead : ((divide f.body).1.map .operation).filterMap Instruction.label? = [] := by
    rw [List.filterMap_map]
    exact List.filterMap_none _
  have whole := congrArg (List.filterMap Instruction.label?) (divide_flatten f.body)
  rw [List.filterMap_append, List.filterMap_flatMap, funext BasicBlock.labels_flatten, lead,
    List.nil_append, ← List.map_eq_flatMap] at whole
  exact whole.symm

/-- The pieces are straight exactly when nothing stands behind what ends a block. -/
theorem terminatorsLast_iff_pieces
    : TerminatorsLast f.body ↔ ∀ block ∈ f.pieces, block.Straight := by
  conv_lhs => rw [← divide_flatten f.body]
  rw [terminatorsLast_append _ (startsBlock_flatMap _), terminatorsLast_flatMap, pieces,
    List.forall_mem_cons]
  rfl

/-- The ways in which operations end blocks are those in which the pieces end. -/
theorem hasExit_iff_pieces (last : TerminatorsLast f.body) {exit : Opcode × List String}
    : f.HasExit exit ↔ ∃ block ∈ f.pieces, block.exit? = some exit := by
  have straight := terminatorsLast_iff_pieces.mp last
  simp only [HasExit, ← flatMap_body_pieces, List.mem_flatMap]
  constructor
  · rintro ⟨op, ⟨block, member, inside⟩, ends⟩
    exact ⟨block, member, (straight block member).exit?_eq_some.mpr ⟨op, inside, ends⟩⟩
  · rintro ⟨block, member, ends⟩
    obtain ⟨op, inside, ends⟩ := (straight block member).exit?_eq_some.mp ends
    exact ⟨op, ⟨block, member, inside⟩, ends⟩

/-- The labels that branches go to are told from the ways in which operations end blocks. -/
theorem exists_branchTarget_iff {label : String}
    : (∃ op ∈ f.operations, label ∈ op.branchTargets)
      ↔ ∃ exit, f.HasExit exit ∧ exit.1.isBranch = true ∧ label ∈ exit.2 := by
  constructor
  · rintro ⟨op, member, target⟩
    unfold Operation.branchTargets at target
    split at target
    · next branch =>
        exact ⟨_, ⟨op, member, Opcode.isTerminator_of_isBranch branch, rfl⟩, branch, target⟩
    · exact absurd target List.not_mem_nil
  · rintro ⟨_, ⟨op, member, -, rfl⟩, branch, target⟩
    exact ⟨op, member, by simpa only [Operation.branchTargets, branch, if_true] using target⟩

/-- Nothing stands in front of the first label of a function that starts with one. -/
theorem divide_fst_of_firstLabel? (labelled : f.firstLabel?.isSome = true)
    : (divide f.body).1 = [] := by
  obtain ⟨name, rest, shape⟩ := exists_label_of_firstLabel? labelled
  rw [shape]
  rfl

/-- The first label of a function is that of its first block if nothing stands in front. -/
theorem firstLabel?_of_divide_fst (none : (divide f.body).1 = [])
    : f.firstLabel? = (divide f.body).2.head?.map BasicBlock.label := by
  rw [firstLabel?]
  cases shape : f.body with
  | nil => rfl
  | cons first rest =>
      cases first with
      | label name => rfl
      | operation op => simp [shape, divide] at none

/-- Only a function that starts with a label needs no entry block. -/
theorem isSome_firstLabel?_of_needsEntry (starts : f.needsEntry = false)
    : f.firstLabel?.isSome = true := by
  obtain ⟨name, rest, shape⟩ := exists_label_of_not_needsEntry starts
  rw [firstLabel?, shape]
  rfl

-----------------------------------------------------------------------------------------
-- Rewritten functions
-----------------------------------------------------------------------------------------

/-- A function becomes another one by a change to the operations of each piece. -/
structure Rewrites (change : List Operation → List Operation) (f f' : Function) : Prop where
  name : f'.name = f.name
  params : f'.params = f.params
  divided : divide f'.body = (change (divide f.body).1, (divide f.body).2.map (·.rewrite change))

namespace Rewrites

variable {change : List Operation → List Operation} {f f' : Function}

/-- A rewritten function declares the same labels. -/
theorem labels_eq (rewrites : Rewrites change f f') : f'.labels = f.labels := by
  rw [labels_eq_map_label, labels_eq_map_label, rewrites.divided, List.map_map]
  rfl

/-- A rewritten function would have the same label for an added entry. -/
theorem freshEntryLabel_eq (rewrites : Rewrites change f f')
    : f'.freshEntryLabel = f.freshEntryLabel := by
  simp only [freshEntryLabel, rewrites.labels_eq]

/-- The pieces of a rewritten function are the rewritten pieces. -/
theorem pieces_eq (rewrites : Rewrites change f f')
    : f'.pieces = f.pieces.map (·.rewrite change) := by
  simp only [pieces, lead, rewrites.divided, rewrites.freshEntryLabel_eq, List.map_cons,
    BasicBlock.rewrite]

/-- A function without instructions is rewritten to one without instructions. -/
theorem body_eq_nil (rewrites : Rewrites change f f') (keeps : KeepsEnds change)
    (empty : f.body = [])
    : f'.body = [] := by
  rw [← divide_flatten f'.body, rewrites.divided, empty]
  simp [divide, keeps.nil]

/-- A function that starts with a label starts with it when it is rewritten. -/
theorem firstLabel?_eq (rewrites : Rewrites change f f') (keeps : KeepsEnds change)
    (labelled : f.firstLabel?.isSome = true)
    : f'.firstLabel? = f.firstLabel? := by
  have lead := divide_fst_of_firstLabel? labelled
  have lead' : (divide f'.body).1 = [] := by
    rw [rewrites.divided, lead, keeps.nil]
  rw [firstLabel?_of_divide_fst lead, firstLabel?_of_divide_fst lead', rewrites.divided,
    List.head?_map, Option.map_map]
  rfl

section KeepsEnds

variable (rewrites : Rewrites change f f') (keeps : KeepsEnds change)
  (last : TerminatorsLast f.body)

include rewrites keeps last

/-- Nothing stands behind what ends a block in a rewritten function. -/
theorem terminatorsLast : TerminatorsLast f'.body := by
  rw [terminatorsLast_iff_pieces, rewrites.pieces_eq, List.forall_mem_map]
  exact fun block member => keeps.straight (terminatorsLast_iff_pieces.mp last block member)

/-- The operations of a rewritten function end blocks in the same ways. -/
theorem hasExit_iff {exit : Opcode × List String} : f'.HasExit exit ↔ f.HasExit exit := by
  have straight := terminatorsLast_iff_pieces.mp last
  rw [hasExit_iff_pieces last, hasExit_iff_pieces (rewrites.terminatorsLast keeps last),
    rewrites.pieces_eq]
  simp only [List.mem_map, exists_exists_and_eq_and]
  exact exists_congr fun block => and_congr_right fun member => by
    rw [keeps.exit (straight block member)]

/-- The branches of a rewritten function go to the same labels. -/
theorem exists_branchTarget {label : String}
    : (∃ op ∈ f'.operations, label ∈ op.branchTargets)
      ↔ ∃ op ∈ f.operations, label ∈ op.branchTargets := by
  simp only [exists_branchTarget_iff, rewrites.hasExit_iff keeps last]

/-- If all branches go to declared labels, then they do in a rewritten function. -/
theorem branchesDeclared (declared : f.BranchesDeclared) : f'.BranchesDeclared := by
  intro op member label target
  obtain ⟨old, listed, target⟩ :=
    (rewrites.exists_branchTarget keeps last).mp ⟨op, member, target⟩
  exact rewrites.labels_eq ▸ declared old listed label target

/-- A function that starts with a label needs an entry block exactly when it does rewritten. -/
theorem needsEntry_eq (labelled : f.firstLabel?.isSome = true)
    : f'.needsEntry = f.needsEntry := by
  have first := rewrites.firstLabel?_eq keeps labelled
  obtain ⟨label, found⟩ := Option.isSome_iff_exists.mp labelled
  have targets : (∃ op ∈ f'.operations, label ∈ op.branchTargets)
      ↔ ∃ op ∈ f.operations, label ∈ op.branchTargets :=
    rewrites.exists_branchTarget keeps last
  rw [Bool.eq_iff_iff]
  simpa only [needsEntry, first, found, List.any_eq_true, List.contains_iff_mem] using targets

end KeepsEnds

/-- A rewritten function that needs an entry block like the function has the rewritten layout. -/
theorem layout_eq (rewrites : Rewrites change f f')
    (same : f'.needsEntry = f.needsEntry)
    : f'.layout = f.layout.map (·.rewrite change) := by
  have whole := rewrites.pieces_eq
  change (if f'.needsEntry then f'.pieces else (divide f'.body).2)
    = (if f.needsEntry then f.pieces else (divide f.body).2).map (·.rewrite change)
  rw [same, whole, rewrites.divided]
  split <;> rfl

end Rewrites

end Function

-----------------------------------------------------------------------------------------
-- The graph of a rewritten function
-----------------------------------------------------------------------------------------

namespace Cfg

/-- The graph with the operations of its blocks changed. -/
def refill (g : Cfg) (change : List Operation → List Operation) (added : Bool) : Cfg :=
  { g with
    content := g.rebuilt fun b => change (g.body b)
    hasAddedEntry := added }

variable {change : List Operation → List Operation} {added : Bool}

/-- The blocks keep their labels. -/
theorem label_refill (g : Cfg) (b : g.Block) : (g.refill change added).label b = g.label b := by
  change ((g.rebuilt fun b => change (g.body b)).get b).label = g.label b
  rw [get_rebuilt]

/-- The operations of each block are changed. -/
theorem body_refill (g : Cfg) (b : g.Block)
    : (g.refill change added).body b = change (g.body b) := by
  change ((g.rebuilt fun b => change (g.body b)).get b).body = change (g.body b)
  rw [get_rebuilt]

/-- The blocks of an accepted function are straight. -/
theorem Proper.straight {g : Cfg} (proper : g.Proper) (b : g.Block) : (g.content.get b).Straight :=
  proper.terminator_last b

end Cfg

namespace Function

variable {f f' : Function} {change : List Operation → List Operation} {allow : Bool} {g : Cfg}

/-- A rewritten function is accepted with the same graph, refilled, if it needs an entry block like
the function.
-/
theorem Rewrites.ofFunction?_eq_ok (rewrites : Rewrites change f f') (keeps : KeepsEnds change)
    (ok : Cfg.ofFunction? f allow = .ok g) (nonempty : f'.body ≠ [])
    (same : f'.needsEntry = f.needsEntry)
    : Cfg.ofFunction? f' allow = .ok (g.refill change f'.needsEntry) := by
  have straight := (Cfg.proper_of_ok ok).straight
  refine Cfg.ofFunction?_rebuilt _ ok rewrites.name nonempty ?_
    (fun b => keeps.exit (straight b)) (fun b => keeps.straight (straight b))
  rw [rewrites.layout_eq same, ← Cfg.layout_of_ok ok, ← g.map_content, List.map_map,
    Cfg.toList_rebuilt]
  rfl

/-- Control goes on from a block by a branch that ends it or, if nothing ends it, to the block that
is written next.
-/
theorem flowsTo_iff {a b : BasicBlock}
    : f.FlowsTo a b
      ↔ (∃ exit, a.exit? = some exit ∧ exit.1.isBranch = true ∧ b.label ∈ exit.2)
        ∨ a.exit? = none ∧ [a, b] <:+: f.layout := by
  unfold FlowsTo
  refine or_congr ⟨?_, ?_⟩ (and_congr_left fun _ => ?_)
  · rintro ⟨op, last, target⟩
    unfold Operation.branchTargets at target
    split at target
    · next branch =>
        refine ⟨(op.opcode, op.labels), ?_, branch, target⟩
        have ends : op.isTerminator = true := Opcode.isTerminator_of_isBranch branch
        simp [BasicBlock.exit?, BasicBlock.terminator?, last, ends]
    · exact absurd target List.not_mem_nil
  · rintro ⟨exit, ends, branch, target⟩
    simp only [BasicBlock.exit?, BasicBlock.terminator?, Option.map_eq_some_iff,
      Option.filter_eq_some_iff] at ends
    obtain ⟨op, ⟨last, -⟩, rfl⟩ := ends
    exact ⟨op, last, by simpa only [Operation.branchTargets, branch, if_true] using target⟩
  · simp [BasicBlock.exit?, BasicBlock.terminator?, Option.filter_eq_none_iff]

/-- Control comes to written blocks only. -/
theorem Reaches.mem_layout {block : BasicBlock} (reach : f.Reaches block) : block ∈ f.layout := by
  cases reach with
  | entry first => simp [first]
  | step _ _ written => exact written

/-- A well-formed function whose branches go to declared labels is well-formed when it is rewritten,
if anything of it is left.
-/
theorem Rewrites.wellFormed (rewrites : Rewrites change f f') (keeps : KeepsEnds change)
    (good : f.WellFormed) (declared : f.BranchesDeclared) (nonempty : f'.body ≠ [])
    : f'.WellFormed := by
  have exits {op : Operation} (member : op ∈ f'.operations) (ends : op.isTerminator = true)
      : ∃ old ∈ f.operations, old.opcode = op.opcode ∧ old.labels = op.labels := by
    obtain ⟨old, listed, -, same⟩ :=
      (rewrites.hasExit_iff keeps good.terminators_last).mp ⟨op, member, ends, rfl⟩
    exact ⟨old, listed, Prod.mk.inj same⟩
  refine {
    nonempty
    labels_nodup := rewrites.labels_eq ▸ good.labels_nodup
    terminators_last := rewrites.terminatorsLast keeps good.terminators_last
    jmp_labels := fun op member code => ?_
    br_labels := fun op member code => ?_
    resolved := fun op member label target => .inl
      (rewrites.branchesDeclared keeps good.terminators_last declared op member label target)
  }
  · obtain ⟨old, listed, code', labels⟩ := exits member (by rw [Operation.isTerminator, code]; rfl)
    exact labels ▸ good.jmp_labels old listed (code'.trans code)
  · obtain ⟨old, listed, code', labels⟩ := exits member (by rw [Operation.isTerminator, code]; rfl)
    exact labels ▸ good.br_labels old listed (code'.trans code)

/-- The blocks behind an added entry have other labels. -/
theorem label_ne_freshEntryLabel {block : BasicBlock} (later : block ∈ (divide f.body).2)
    : block.label ≠ f.freshEntryLabel := by
  intro same
  have known := List.mem_map_of_mem (f := BasicBlock.label) later
  rw [← labels_eq_map_label, same] at known
  exact f.freshEntryLabel_not_mem_labels known

section EntryGone

variable (rewrites : Rewrites change f f') (keeps : KeepsEnds change)
  (last : TerminatorsLast f.body) (added : f.needsEntry = true) (gone : f'.needsEntry = false)

include rewrites keeps last gone

/-- Nothing ends an added entry block that goes when its operations do. -/
theorem Rewrites.exit?_lead_of_entry_gone : f.lead.exit? = none := by
  have none : (f.lead.rewrite change).body = [] := by
    have start := divide_fst_of_firstLabel? (isSome_firstLabel?_of_needsEntry gone)
    rw [rewrites.divided] at start
    exact start
  have straight := terminatorsLast_iff_pieces.mp last f.lead List.mem_cons_self
  rw [← keeps.exit straight, BasicBlock.exit?, BasicBlock.terminator?, none]
  rfl

include added

/-- If an added entry block goes when its operations do, then control comes to the other blocks as
it did: nothing ended the entry, so it came to the first of them. By induction on the way of
control.
-/
theorem Rewrites.reaches_of_entry_gone {block : BasicBlock} (reach : f.Reaches block)
    : block = f.lead ∨ f'.Reaches (block.rewrite change) := by
  have whole : f.layout = f.pieces := by
    rw [layout, added, if_pos rfl]
    rfl
  have blocks : f'.layout = (divide f.body).2.map (·.rewrite change) := by
    rw [layout, gone, if_neg Bool.false_ne_true, rewrites.divided]
  have opened := rewrites.exit?_lead_of_entry_gone keeps last gone
  induction reach with
  | entry first => exact .inl (List.cons.inj (first.symm.trans whole)).1
  | @step a b before flows written ih =>
      have exit : (a.rewrite change).exit? = a.exit? :=
        keeps.exit (terminatorsLast_iff_pieces.mp last a (whole ▸ before.mem_layout))
      rw [flowsTo_iff, whole, pieces, List.infix_cons_iff] at flows
      rcases List.mem_cons.mp (whole ▸ written) with entry | later
      · exact .inl entry
      have written' : b.rewrite change ∈ f'.layout := blocks ▸ List.mem_map_of_mem later
      refine .inr ?_
      rcases flows with ⟨branch, ends, target⟩ | ⟨open', first | next⟩
      · rcases ih with rfl | reach
        · rw [opened] at ends
          cases ends
        · exact .step reach (flowsTo_iff.mpr (.inl ⟨branch, exit.trans ends, target⟩)) written'
      · -- the entry fell through to the first block
        obtain ⟨rest, shape⟩ := (List.cons_prefix_cons.mp first).2
        have first' : f'.layout = b.rewrite change :: rest.map (·.rewrite change) := by
          rw [blocks, ← shape]
          rfl
        exact .entry first'
      · rcases ih with rfl | reach
        · exact absurd rfl (label_ne_freshEntryLabel (next.subset List.mem_cons_self))
        · have next' : [a.rewrite change, b.rewrite change] <:+: f'.layout :=
            blocks ▸ next.map (BasicBlock.rewrite change)
          exact .step reach (flowsTo_iff.mpr (.inr ⟨exit.trans open', next'⟩)) written'

end EntryGone

/-- A function whose branches go to declared labels is accepted when it is rewritten, if anything of
it is left.
-/
theorem Rewrites.exists_ofFunction?_eq_ok (rewrites : Rewrites change f f')
    (keeps : KeepsEnds change) (ok : Cfg.ofFunction? f allow = .ok g)
    (declared : f.BranchesDeclared) (nonempty : f'.body ≠ [])
    : ∃ g', Cfg.ofFunction? f' allow = .ok g' := by
  have good := wellFormed_of_ok ok
  by_cases same : f'.needsEntry = f.needsEntry
  · exact ⟨_, rewrites.ofFunction?_eq_ok keeps ok nonempty same⟩
  · have added : f.needsEntry = true := by
      by_contra starts
      exact same (rewrites.needsEntry_eq keeps good.terminators_last
        (isSome_firstLabel?_of_needsEntry (Bool.eq_false_iff.mpr starts)))
    have gone : f'.needsEntry = false := by
      simpa [added] using same
    refine (rewrites.wellFormed keeps good declared nonempty).accepted_of_reaches
      ((reaches_of_ok ok).imp_right fun all block' member => ?_)
    rw [layout, gone, if_neg Bool.false_ne_true, rewrites.divided] at member
    obtain ⟨block, later, rfl⟩ := List.mem_map.mp member
    have written : block ∈ f.layout := by
      rw [layout, added, if_pos rfl]
      exact List.mem_cons_of_mem _ later
    refine (rewrites.reaches_of_entry_gone keeps good.terminators_last added gone
      (all block written)).resolve_left fun entry => ?_
    exact label_ne_freshEntryLabel later (congrArg BasicBlock.label entry)

end Function

end ThreeAddress
