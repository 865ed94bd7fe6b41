import ThreeAddress.Proofs.ControlFlow.Edges
import ThreeAddress.Proofs.Graph.Traversal
import ThreeAddress.Proofs.Ssa.Versions

/-! Which functions have a control flow graph, told from the function alone, and when the entry of
the graph has no predecessors.
-/

namespace ThreeAddress

-----------------------------------------------------------------------------------------
-- Well-formed functions
-----------------------------------------------------------------------------------------

namespace Function

/-- What a function must be like to be accepted, apart from unreachable blocks. A branch may go to
the label of an added entry, although the function does not declare it.
-/
structure WellFormed (f : Function) : Prop where
  nonempty : f.body ≠ []
  labels_nodup : f.labels.Nodup
  terminators_last : TerminatorsLast f.body
  jmp_labels : ∀ op ∈ f.operations, op.opcode = .jmp → op.labels.length = 1
  br_labels : ∀ op ∈ f.operations, op.opcode = .br → op.labels.length = 2
  resolved
    : ∀ op ∈ f.operations, ∀ label ∈ op.branchTargets,
        label ∈ f.labels ∨ f.needsEntry = true ∧ label = f.freshEntryLabel

/-- Control may go on from one block to another: by a branch at the end of the one or, where nothing
ends it, because the other is written next.
-/
def FlowsTo (f : Function) (a b : BasicBlock) : Prop :=
  (∃ op, a.body.getLast? = some op ∧ b.label ∈ op.branchTargets)
  ∨ (∀ op, a.body.getLast? = some op → op.isTerminator = false) ∧ [a, b] <:+: f.layout

/-- Control may come to a block from the first one. -/
inductive Reaches (f : Function) : BasicBlock → Prop
  | entry {block : BasicBlock} {rest : List BasicBlock} (first : f.layout = block :: rest)
    : f.Reaches block
  | step {a b : BasicBlock} (before : f.Reaches a) (flows : f.FlowsTo a b) (written : b ∈ f.layout)
    : f.Reaches b

/-- The label of an added entry is not declared: there are more candidates than labels. -/
theorem freshEntryLabel_not_mem_labels (f : Function) : f.freshEntryLabel ∉ f.labels := by
  let numbered (n : Nat) : String := s!"entry.{n}"
  have spelled (n : Nat) : numbered n = versionName "entry" n := by
    simp only [numbered, versionName]
    rfl
  let candidates := "entry" :: (List.range' 1 f.labels.length).map numbered
  have unique : candidates.Nodup := by
    refine List.nodup_cons.mpr ⟨fun member => ?_, ?_⟩
    · obtain ⟨n, -, same⟩ := List.mem_map.mp member
      exact ne_versionName_of_dotless (by decide) "entry" n (same.symm.trans (spelled n))
    · refine List.Nodup.map (fun m n same => ?_) List.nodup_range'
      exact (versionName_inj ((spelled m).symm.trans (same.trans (spelled n)))).2
  have free : ∃ label ∈ candidates, label ∉ f.labels := by
    by_contra none
    push Not at none
    have bound := unique.length_le_of_subset none
    simp only [candidates, List.length_cons, List.length_map, List.length_range'] at bound
    omega
  obtain ⟨label, member, absent⟩ := free
  cases found : candidates.find? fun label => !f.labels.contains label with
  | none => simp_all
  | some first =>
      have fresh : f.freshEntryLabel = first := by
        simp only [freshEntryLabel]
        exact congrArg (Option.getD · "") found
      simpa [fresh] using List.find?_some found

/-- Only the last operation of each block ends it, exactly when that is so in the body. -/
theorem terminatorsLast_body {f : Function}
    : TerminatorsLast f.body
      ↔ ∀ block ∈ f.layout, ∀ op ∈ block.body.dropLast, op.isTerminator = false := by
  rw [← terminatorsLast_flatMap, flatMap_flatten_layout, entryBody]
  split <;> rfl

/-- The blocks have the labels that the function declares and the label of an added entry. -/
theorem mem_map_label_layout {f : Function} {label : String}
    : label ∈ f.layout.map BasicBlock.label
      ↔ label ∈ f.labels ∨ f.needsEntry = true ∧ label = f.freshEntryLabel := by
  rw [map_label_layout]
  split <;> simp_all [or_comm]

/-- The labels of the blocks are distinct exactly when those that are declared are. -/
theorem nodup_map_label_layout {f : Function}
    : (f.layout.map BasicBlock.label).Nodup ↔ f.labels.Nodup := by
  rw [map_label_layout]
  split
  · simp [f.freshEntryLabel_not_mem_labels]
  · rfl

end Function

namespace Cfg

-----------------------------------------------------------------------------------------
-- The blocks that the entry reaches
-----------------------------------------------------------------------------------------

variable {g : Cfg}

/-- No block is reported exactly when all are reachable. -/
theorem unreachableBlock?_eq_none : g.unreachableBlock? = none ↔ ∀ b : g.Block, g.Reachable b := by
  simp only [unreachableBlock?, List.find?_eq_none, Bool.not_eq_true', Bool.not_eq_false,
    FlowGraph.contains_reachable]
  exact ⟨fun all b => all b (g.mem_blocks b), fun all b _ => all b⟩

theorem getElem?_layout (b : g.Block) : g.layout[b.val]? = some (g.content.get b) := by
  simp [layout, Vector.get]

/-- A place in the layout is told by the block there. -/
theorem Proper.eq_of_getElem?_layout (proper : g.Proper) {i : Nat} {b : g.Block}
    (here : g.layout[i]? = some (g.content.get b))
    : i = b.val := by
  have inside : i < g.size := by
    have := (List.getElem?_eq_some_iff.mp here).1
    simpa [layout] using this
  have same := (getElem?_layout ⟨i, inside⟩).symm.trans here
  have label := congrArg BasicBlock.label (Option.some.inj same)
  exact congrArg Fin.val (proper.label_injective ⟨i, inside⟩ b label)

/-- The block that comes next is the one written next. -/
theorem Proper.next_iff_infix (proper : g.Proper) {b c : g.Block}
    : c.val = b.val + 1 ↔ [g.content.get b, g.content.get c] <:+: g.layout := by
  rw [List.infix_iff_getElem?]
  constructor
  · intro next
    refine ⟨b.val, ?_, fun i inside => ?_⟩
    · simp only [List.length_cons, List.length_nil, layout, Vector.length_toList]
      omega
    · have places : i = 0 ∨ i = 1 := by
        simp only [List.length_cons, List.length_nil] at inside
        omega
      rcases places with rfl | rfl
      · simpa using getElem?_layout b
      · rw [Nat.add_comm, ← next]
        exact getElem?_layout c
  · intro written
    obtain ⟨k, -, places⟩ := written
    have first := proper.eq_of_getElem?_layout (places 0 (by simp))
    have second := proper.eq_of_getElem?_layout (places 1 (by simp))
    omega

/-- Edges are the ways control may go on between blocks. -/
theorem Proper.mem_succs_iff_flowsTo (proper : g.Proper) {f : Function} (same : g.layout = f.layout)
    {b c : g.Block}
    : c ∈ g.succs b ↔ f.FlowsTo (g.content.get b) (g.content.get c) := by
  rw [proper.mem_succs, proper.next_iff_infix, same]
  rfl

/-- The entry reaches those blocks that control may come to, by induction on the walk and on the way
of control.
-/
theorem Proper.reachable_iff_reaches (proper : g.Proper) {f : Function} (same : g.layout = f.layout)
    (b : g.Block)
    : g.Reachable b ↔ f.Reaches (g.content.get b) := by
  have written (c : g.Block) : g.content.get c ∈ f.layout :=
    same ▸ List.mem_of_getElem? (getElem?_layout c)
  have start : ∃ rest, f.layout = g.content.get g.entry :: rest := by
    have head := same ▸ getElem?_layout g.entry
    rw [FlowGraph.entry, ← List.head?_eq_getElem?] at head
    exact ⟨_, List.eq_cons_of_mem_head? head⟩
  constructor
  · intro reach
    obtain ⟨left, walk⟩ := reach
    have along {a c : g.Block} {left : List g.Block} (walk : g.Walk a left c)
        (before : f.Reaches (g.content.get a))
        : f.Reaches (g.content.get c) := by
      induction walk with
      | stay => exact before
      | step edge _ ih =>
          exact ih (.step before ((proper.mem_succs_iff_flowsTo same).mp edge) (written _))
    obtain ⟨rest, first⟩ := start
    exact along walk (.entry first)
  · have backwards {block : BasicBlock} (reach : f.Reaches block)
        : ∃ c : g.Block, g.content.get c = block ∧ g.Reachable c := by
      induction reach with
      | entry first =>
          obtain ⟨rest, first'⟩ := start
          exact ⟨g.entry, (List.cons.inj (first'.symm.trans first)).1, g.reachable_entry⟩
      | step _ flows member ih =>
          obtain ⟨a, rfl, reach⟩ := ih
          rw [← same, ← g.map_content] at member
          obtain ⟨c, -, rfl⟩ := List.mem_map.mp member
          exact ⟨c, rfl, reach.succ ((proper.mem_succs_iff_flowsTo same).mpr flows)⟩
    intro reach
    obtain ⟨c, block, reach⟩ := backwards reach
    exact proper.label_injective c b (congrArg BasicBlock.label block) ▸ reach

/-- No block is reported exactly when control may come to all of them. -/
theorem Proper.unreachableBlock?_eq_none_iff_reaches (proper : g.Proper) {f : Function}
    (same : g.layout = f.layout)
    : g.unreachableBlock? = none ↔ ∀ block ∈ f.layout, f.Reaches block := by
  rw [unreachableBlock?_eq_none, ← same, ← g.map_content, List.forall_mem_map]
  exact ⟨fun all b _ => (proper.reachable_iff_reaches same b).mp (all b),
    fun all b => (proper.reachable_iff_reaches same b).mpr (all b (g.mem_blocks b))⟩

-----------------------------------------------------------------------------------------
-- Branches of an accepted function
-----------------------------------------------------------------------------------------

/-- A block is found for the label of each. -/
theorem exists_findLabel? {label : String} (known : label ∈ g.layout.map BasicBlock.label)
    : ∃ b, findLabel? g.content label = some b := by
  obtain ⟨block, member, rfl⟩ := List.mem_map.mp known
  rw [← g.map_content] at member
  obtain ⟨b, listed, rfl⟩ := List.mem_map.mp member
  refine Option.isSome_iff_exists.mp (List.find?_isSome.mpr ⟨b, listed, ?_⟩)
  exact beq_self_eq_true _

/-- What ends a block is its last operation. -/
theorem Proper.getLast?_of_isTerminator (proper : g.Proper) {b : g.Block} {op : Operation}
    (member : op ∈ g.body b) (ends : op.isTerminator = true)
    : (g.body b).getLast? = some op := by
  obtain ⟨front, rest, shape⟩ := List.append_of_mem member
  obtain rfl := proper.eq_nil_of_isTerminator ⟨front, shape.symm⟩ ends
  simp [shape]

/-- Every branch of an accepted function ends a block. -/
theorem exists_getLast?_of_branch {f : Function} {allow : Bool} (ok : ofFunction? f allow = .ok g)
    {op : Operation} (member : op ∈ f.operations) {width : Nat}
    (branch : branchWidth? op.opcode = some width)
    : ∃ b : g.Block, (g.body b).getLast? = some op := by
  have ends : op.isTerminator = true := by
    cases code : op.opcode <;>
      simp_all [branchWidth?, Operation.isTerminator, Opcode.isTerminator]
  rw [← Function.flatMap_body_layout, ← layout_of_ok ok, ← g.map_content] at member
  obtain ⟨block, listed, inside⟩ := List.mem_flatMap.mp member
  obtain ⟨b, -, rfl⟩ := List.mem_map.mp listed
  exact ⟨b, (proper_of_ok ok).getLast?_of_isTerminator inside ends⟩

end Cfg

/-- A branch has a number of targets. -/
theorem Operation.exists_branchWidth? {op : Operation} {label : String}
    (target : label ∈ op.branchTargets)
    : ∃ width, Cfg.branchWidth? op.opcode = some width := by
  cases code : op.opcode <;> simp_all [branchTargets, Opcode.isBranch, Cfg.branchWidth?]

namespace Function

variable {f : Function}

/-- Branches of a well-formed function have as many targets as they need. -/
theorem WellFormed.length_labels (good : f.WellFormed) {op : Operation} (member : op ∈ f.operations)
    {width : Nat} (branch : Cfg.branchWidth? op.opcode = some width)
    : op.labels.length = width := by
  have jmp := good.jmp_labels op member
  have br := good.br_labels op member
  cases code : op.opcode <;> simp_all [Cfg.branchWidth?]

/-- A well-formed function is accepted where unreachable blocks are. -/
theorem WellFormed.accepted (good : f.WellFormed) : ∃ g, Cfg.ofFunction? f true = .ok g := by
  refine ⟨_, Cfg.ofFunction?_eq_ok.mpr ⟨good.nonempty, ?_, rfl, fun b => ?_, .inl rfl⟩⟩
  · exact layoutFault?_eq_none.mpr ⟨nodup_map_label_layout.mpr good.labels_nodup,
      fun block member =>
        ⟨List.not_mem_nil, terminatorsLast_body.mp good.terminators_last block member⟩⟩
  · generalize whole : Cfg.ofBlocks f.name f.needsEntry f.layout f.layout_ne_nil = g at b
    have same : g.layout = f.layout := whole ▸ rfl
    simp only [Cfg.branchFault?, Option.bind_eq_none_iff]
    intro op last width branch
    have member : op ∈ f.operations := by
      rw [← flatMap_body_layout, ← same]
      exact List.mem_flatMap.mpr
        ⟨_, List.mem_of_getElem? (Cfg.getElem?_layout b), List.mem_of_getLast? last⟩
    rw [if_pos (good.length_labels member branch), Option.map_eq_none_iff, List.find?_eq_none]
    intro label listed
    have target : label ∈ op.branchTargets := by
      cases code : op.opcode <;>
        simp_all [Operation.branchTargets, Opcode.isBranch, Cfg.branchWidth?]
    have known := mem_map_label_layout.mpr (good.resolved op member label target)
    obtain ⟨c, found⟩ := Cfg.exists_findLabel? (same ▸ known)
    simp [found]

/-- An accepted function is well-formed. -/
theorem wellFormed_of_ok {allow : Bool} {g : Cfg} (ok : Cfg.ofFunction? f allow = .ok g)
    : f.WellFormed := by
  obtain ⟨nonempty, fault, -, -, -⟩ := Cfg.ofFunction?_eq_ok.mp ok
  obtain ⟨unique, blocks⟩ := layoutFault?_eq_none.mp fault
  have labels {op : Operation} (member : op ∈ f.operations) {width : Nat}
      (branch : Cfg.branchWidth? op.opcode = some width)
      : op.labels.length = width ∧ ∀ label ∈ op.labels, ∃ c, g.label c = label := by
    obtain ⟨b, last⟩ := Cfg.exists_getLast?_of_branch ok member branch
    exact (Cfg.proper_of_ok ok).branch_labels last branch
  refine {
    nonempty
    labels_nodup := nodup_map_label_layout.mp unique
    terminators_last := terminatorsLast_body.mpr fun block member => (blocks block member).2
    jmp_labels := fun op member code => (labels member (by rw [code]; rfl)).1
    br_labels := fun op member code => (labels member (by rw [code]; rfl)).1
    resolved := fun op member label target => ?_
  }
  obtain ⟨width, branch⟩ := op.exists_branchWidth? target
  have listed : label ∈ op.labels := by
    simp only [Operation.branchTargets] at target
    split at target
    · exact target
    · simp at target
  obtain ⟨c, rfl⟩ := (labels member branch).2 label listed
  refine mem_map_label_layout.mp (List.mem_map.mpr ⟨g.content.get c, ?_, rfl⟩)
  exact Cfg.layout_of_ok ok ▸ List.mem_of_getElem? (Cfg.getElem?_layout c)

/-- Control may come to all blocks of an accepted function, unless that is not asked for. -/
theorem reaches_of_ok {allow : Bool} {g : Cfg} (ok : Cfg.ofFunction? f allow = .ok g)
    : allow = true ∨ ∀ block ∈ f.layout, f.Reaches block := by
  obtain ⟨-, -, -, -, all⟩ := Cfg.ofFunction?_eq_ok.mp ok
  exact all.imp_right
    ((Cfg.proper_of_ok ok).unreachableBlock?_eq_none_iff_reaches (Cfg.layout_of_ok ok)).mp

/-- A well-formed function is accepted if control may come to all blocks, or that is not asked for.
-/
theorem WellFormed.accepted_of_reaches (good : f.WellFormed) {allow : Bool}
    (all : allow = true ∨ ∀ block ∈ f.layout, f.Reaches block)
    : ∃ g, Cfg.ofFunction? f allow = .ok g := by
  obtain ⟨g, ok⟩ := good.accepted
  obtain ⟨nonempty, fault, whole, faults, -⟩ := Cfg.ofFunction?_eq_ok.mp ok
  refine ⟨g, Cfg.ofFunction?_eq_ok.mpr ⟨nonempty, fault, whole, faults, ?_⟩⟩
  exact all.imp_right
    ((Cfg.proper_of_ok ok).unreachableBlock?_eq_none_iff_reaches (Cfg.layout_of_ok ok)).mpr

/-- The label of an added entry is that of the entry. -/
theorem label_entry_of_needsEntry {allow : Bool} {g : Cfg} (ok : Cfg.ofFunction? f allow = .ok g)
    (added : f.needsEntry = true)
    : g.label g.entry = f.freshEntryLabel := by
  obtain ⟨rest, shape⟩ := entryBody_eq ok
  rw [entryBody, if_pos added] at shape
  exact (Instruction.label.inj (List.cons.inj shape).1).symm

/-- Splitting an accepted function writes the label of its entry, if that is added. -/
theorem split_of_ok {allow : Bool} {g : Cfg} (ok : Cfg.ofFunction? f allow = .ok g)
    : f.split allow = .ok ({ f with body := f.entryBody }, g) := by
  have added : g.hasAddedEntry = f.needsEntry := by
    obtain ⟨-, -, rfl, -⟩ := Cfg.ofFunction?_eq_ok.mp ok
    rfl
  rw [split, ok, Except.map, added, entryBody]
  split
  · next needed => rw [label_entry_of_needsEntry ok needed]
  · rfl

/-- If nothing precedes the entry, all branches go to declared labels: the only other label that a
branch may go to is that of an added entry, and then the block with the branch precedes the entry.
-/
theorem branchesDeclared_of_preds_eq_nil {allow : Bool} {g : Cfg}
    (ok : Cfg.ofFunction? f allow = .ok g) (none : g.preds g.entry = [])
    : f.BranchesDeclared := by
  intro op member label target
  rcases (wellFormed_of_ok ok).resolved op member label target with declared | ⟨added, rfl⟩
  · exact declared
  · obtain ⟨width, branch⟩ := op.exists_branchWidth? target
    obtain ⟨b, last⟩ := Cfg.exists_getLast?_of_branch ok member branch
    rw [← label_entry_of_needsEntry ok added] at target
    have edge : g.entry ∈ g.succs b := (Cfg.proper_of_ok ok).mem_succs.mpr (.inl ⟨op, last, target⟩)
    have pred := (g.mem_preds g.entry b).mpr edge
    rw [none] at pred
    exact absurd pred List.not_mem_nil

/-- A function has a control flow graph exactly when it is well-formed and, unless unreachable
blocks are allowed, control may come to all its blocks. The entry of the graph has no predecessors
exactly when all branches go to labels that the function declares, and not to that of an added
entry.
-/
theorem isOk_ofFunction?_iff (f : Function) (allow : Bool)
    : ((∃ g, Cfg.ofFunction? f allow = .ok g)
        ↔ f.WellFormed ∧ (allow = true ∨ ∀ block ∈ f.layout, f.Reaches block))
      ∧ ∀ g, Cfg.ofFunction? f allow = .ok g → (g.preds g.entry = [] ↔ f.BranchesDeclared) := by
  refine ⟨⟨fun accepted => ?_, fun fits => ?_⟩, fun g ok => ?_⟩
  · obtain ⟨g, ok⟩ := accepted
    exact ⟨wellFormed_of_ok ok, reaches_of_ok ok⟩
  · obtain ⟨good, all⟩ := fits
    exact good.accepted_of_reaches all
  · exact ⟨branchesDeclared_of_preds_eq_nil ok, preds_entry_eq_nil ok⟩

end Function

/-- A function whose only branch goes to a label that it does not declare, but that is free for the
entry that has to be added.
-/
def jumpToAddedEntry : Function where
  name := "f"
  body := [
    .operation { opcode := .nop },
    .label "next",
    .operation { opcode := .jmp, labels := ["entry"] }]

/-- A branch to an undeclared label is accepted where the added entry takes that label, and then the
entry has a predecessor.
-/
theorem ofFunction?_jumpToAddedEntry
    : (∃ g, Cfg.ofFunction? jumpToAddedEntry = .ok g ∧ g.preds g.entry ≠ [])
      ∧ ¬ jumpToAddedEntry.BranchesDeclared := by
  have accepted : (Cfg.ofFunction? jumpToAddedEntry).toOption.any
      (fun g => !(g.preds g.entry).isEmpty) = true := by cbv
  obtain ⟨g, ok, some⟩ := exists_eq_ok_of_any accepted
  refine ⟨⟨g, ok, by simpa using some⟩, ?_⟩
  unfold Function.BranchesDeclared
  decide

/-- A loop behind a first block that no branch goes to. -/
def loopBehindEntry : Function where
  name := "f"
  body := [
    .label "entry",
    .operation { opcode := .nop },
    .label "next",
    .operation { opcode := .jmp, labels := ["next"] }]

/-- The loop is accepted, so it is well-formed and control may come to both blocks, and nothing
precedes its entry.
-/
theorem isOk_ofFunction?_loopBehindEntry
    : ∃ g, Cfg.ofFunction? loopBehindEntry = .ok g
      ∧ loopBehindEntry.WellFormed ∧ (∀ block ∈ loopBehindEntry.layout, loopBehindEntry.Reaches block)
      ∧ g.preds g.entry = [] := by
  have accepted : (Cfg.ofFunction? loopBehindEntry).isOk = true := by cbv
  have declared : loopBehindEntry.BranchesDeclared := by
    unfold Function.BranchesDeclared
    decide
  obtain ⟨g, ok⟩ := exists_eq_ok_of_isOk accepted
  obtain ⟨iff, entry⟩ := Function.isOk_ofFunction?_iff loopBehindEntry false
  obtain ⟨good, reached⟩ := iff.mp ⟨g, ok⟩
  exact ⟨g, ok, good, reached.resolve_left (by simp), (entry g ok).mpr declared⟩

end ThreeAddress
