import ThreeAddress.Proofs.Verification.ValidSsa

/-! What each check of a verification asks for: its findings are acceptable exactly if what it
looks at fits.
-/

namespace ThreeAddress

/-- None of the findings is an error, except for types that differ when these are not asked for. -/
def Acceptable (typed : Bool) (findings : List Diagnostic) : Prop :=
  ∀ d ∈ findings, d.isError = true → typed = false ∧ d.code = .phiIncomingTypeMismatch

section Acceptable

variable {typed : Bool}

/-- Nothing found is acceptable. -/
@[simp] theorem acceptable_nil : Acceptable typed [] := by
  simp [Acceptable]

/-- Findings one after another are acceptable if both parts are. -/
@[simp] theorem acceptable_append {first second : List Diagnostic}
    : Acceptable typed (first ++ second) ↔ Acceptable typed first ∧ Acceptable typed second :=
  List.forall_mem_append

/-- A finding in front is a list of its own. -/
theorem acceptable_cons {d : Diagnostic} {rest : List Diagnostic}
    : Acceptable typed (d :: rest)
      ↔ (d.isError = true → typed = false ∧ d.code = .phiIncomingTypeMismatch)
        ∧ Acceptable typed rest := by
  exact List.forall_mem_cons

/-- An error about an operation is not acceptable, unless it is about types that differ. -/
@[simp] theorem acceptable_operationError {g : Cfg} {b : g.Block} {index : Nat} {op : Operation}
    {code : DiagnosticCode} {message : String} {notes : List String} {rest : List Diagnostic}
    : Acceptable typed (g.operationError b index op code message notes :: rest)
      ↔ (typed = false ∧ code = .phiIncomingTypeMismatch) ∧ Acceptable typed rest := by
  have error : (g.operationError b index op code message notes).isError = true := rfl
  rw [acceptable_cons, forall_prop_of_true error]
  rfl

/-- The findings for the members of a list are acceptable if they are for each. -/
theorem acceptable_flatMap {α : Type} {l : List α} {found : α → List Diagnostic}
    : Acceptable typed (l.flatMap found) ↔ ∀ x ∈ l, Acceptable typed (found x) := by
  simp only [Acceptable, List.mem_flatMap]
  exact ⟨fun all x member d found => all d ⟨x, member, found⟩,
    fun all d ⟨x, member, found⟩ => all x member d found⟩

end Acceptable

namespace Subject

/-- Dominance is checked of what is used in a block or at its end. -/
def Checks (s : Subject) (b : s.cfg.Block) : Prop :=
  s.config.checksDominance = true ∧ s.tree.isReachable b = true

variable {s : Subject} {typed : Bool} {b : s.cfg.Block} {index : Nat} {op : Operation}

-----------------------------------------------------------------------------------------
-- Definitions
-----------------------------------------------------------------------------------------

/-- A second definition is an error of its own kind, for parameters as for operations. -/
theorem not_acceptable_redefinition (first again : SiteDef s.cfg) (rest : List Diagnostic)
    : ¬ Acceptable typed (s.redefinition first again :: rest) := by
  rw [acceptable_cons]
  intro fine
  obtain ⟨error, -⟩ := fine
  unfold redefinition at error
  split at error
  · exact DiagnosticCode.noConfusion (error rfl).2
  · exact DiagnosticCode.noConfusion (error rfl).2

/-- No definition is found to be a second one exactly when all variables are distinct, also from
those seen before; by induction on the definitions still to look at.
-/
theorem acceptable_redefinitions {earlier sites : List (SiteDef s.cfg)}
    : Acceptable typed (s.redefinitions earlier sites)
      ↔ (sites.map SiteDef.var).Nodup ∧ ∀ d ∈ sites, ∀ e ∈ earlier, e.var ≠ d.var := by
  induction sites generalizing earlier with
  | nil => simp [redefinitions]
  | cons d rest ih =>
      rw [redefinitions]
      cases found : earlier.find? fun e => e.var == d.var with
      | some first =>
          have same : first.var = d.var := by simpa using List.find?_some found
          apply iff_of_false (not_acceptable_redefinition first d _)
          intro distinct
          exact distinct.2 d List.mem_cons_self first (List.mem_of_find?_eq_some found) same
      | none =>
          have fresh : ∀ e ∈ earlier, e.var ≠ d.var := by
            simpa using found
          simp only [Option.map_none, Option.toList_none, List.nil_append, ih, List.map_cons,
            List.nodup_cons, List.mem_map, not_exists, not_and, List.mem_append, List.mem_cons,
            List.not_mem_nil, or_false, forall_eq_or_imp]
          constructor
          · intro distinct
            obtain ⟨unique, apart⟩ := distinct
            refine ⟨⟨fun e member => ?_, unique⟩, fresh, fun e member x seen => ?_⟩
            · exact fun same => apart e member d (.inr rfl) same.symm
            · exact apart e member x (.inl seen)
          · intro distinct
            obtain ⟨⟨front, unique⟩, -, apart⟩ := distinct
            refine ⟨unique, fun e member x seen => ?_⟩
            rcases seen with seen | rfl
            · exact apart e member x seen
            · exact fun same => front e member same.symm

/-- With distinct variables, the definition found for a variable is any definition of it. -/
theorem siteOf?_eq_some (unique : (s.sites.map SiteDef.var).Nodup) {var : String}
    {d : SiteDef s.cfg}
    : s.siteOf? var = some d ↔ d ∈ s.sites ∧ d.var = var := by
  constructor
  · intro found
    rw [siteOf?] at found
    exact ⟨List.mem_of_find?_eq_some found, by simpa using List.find?_some found⟩
  · intro site
    obtain ⟨member, rfl⟩ := site
    cases found : s.siteOf? d.var with
    | none =>
        have absent := List.find?_eq_none.mp found d member
        exact absurd (beq_self_eq_true d.var) absent
    | some e =>
        rw [siteOf?] at found
        have same : e.var = d.var := by simpa using List.find?_some found
        rw [List.inj_on_of_nodup_map unique (List.mem_of_find?_eq_some found) member same]

-----------------------------------------------------------------------------------------
-- Phis
-----------------------------------------------------------------------------------------

/-- The types of a phi and a definition in one of its slots are not different. -/
theorem acceptable_typeMismatch {arg label : String} {d : SiteDef s.cfg}
    : Acceptable typed (s.typeMismatch b index op arg label d)
      ↔ (typed = true → ∀ expected found, op.ty = some expected → d.ty = some found →
          expected = found) := by
  unfold typeMismatch
  split
  · next expected found phi definition =>
      split
      · next same => simp [same, phi, definition]
      · next different => cases typed <;> simp [different, phi, definition]
  · next untyped =>
      apply iff_of_true acceptable_nil
      intro _ expected found phi definition
      exact (untyped expected found phi definition).elim

/-- The definition in a slot is there at the end of the block the slot is for. -/
theorem acceptable_unavailable {arg label : String} {d : SiteDef s.cfg} {pred : s.cfg.Block}
    : Acceptable typed (s.unavailable b index op arg label d pred)
      ↔ (s.Checks pred → s.isAvailableAtEnd d pred = true) := by
  unfold unavailable
  split
  · next missing => simp_all [Checks]
  · next fine => simp_all [Checks]

/-- A label names a predecessor, which it then is found for. -/
theorem predNamed?_eq_some (proper : s.cfg.Proper) {label : String} {pred : s.cfg.Block}
    : s.predNamed? b label = some pred ↔ pred ∈ s.cfg.preds b ∧ s.cfg.label pred = label := by
  rw [predNamed?, Option.filter_eq_some_iff, List.contains_iff_mem, Cfg.blockOf?]
  constructor
  · intro named
    obtain ⟨found, member⟩ := named
    exact ⟨member, Cfg.label_of_findLabel? found⟩
  · intro edge
    obtain ⟨member, rfl⟩ := edge
    exact ⟨proper.findLabel?_label pred, member⟩

/-- What is asked of one slot of a phi. -/
def SlotFits (s : Subject) (typed : Bool) (b : s.cfg.Block) (op : Operation) (arg label : String)
    : Prop :=
  ∃ pred ∈ s.cfg.preds b, s.cfg.label pred = label
    ∧ (arg ≠ s.config.undefName → ∃ d, s.siteOf? arg = some d
      ∧ (typed = true → ∀ expected found, op.ty = some expected → d.ty = some found →
          expected = found)
      ∧ (s.Checks pred → s.isAvailableAtEnd d pred = true))

/-- A slot is acceptable if it is for a predecessor, and its argument is defined, of the right type,
and there at the end of the predecessor.
-/
theorem acceptable_slotFindings (proper : s.cfg.Proper) {arg label : String}
    : Acceptable typed (s.slotFindings b index op arg label) ↔ s.SlotFits typed b op arg label := by
  unfold slotFindings SlotFits
  cases named : s.predNamed? b label with
  | none =>
      refine iff_of_false (by simp) ?_
      intro fits
      obtain ⟨pred, member, same, -⟩ := fits
      rw [(predNamed?_eq_some proper).mpr ⟨member, same⟩] at named
      cases named
  | some pred =>
      obtain ⟨member, rfl⟩ := (predNamed?_eq_some proper).mp named
      have only : ∀ other, s.cfg.label other = s.cfg.label pred ↔ other = pred :=
        fun other => ⟨proper.label_injective other pred, congrArg _⟩
      simp only [only, ← and_assoc, and_comm (b := _ = pred)]
      by_cases undefined : arg = s.config.undefName
      · simp [undefined, member]
      · cases found : s.siteOf? arg with
        | none => simp [undefined]
        | some d =>
            simp [undefined, member, acceptable_typeMismatch, acceptable_unavailable]

/-- The slots of a phi are acceptable if no label comes twice and each slot is; by induction on the
slots, with the labels already seen.
-/
theorem acceptable_slotsFindings {seen : List String} {slots : List (String × String)}
    : Acceptable typed (s.slotsFindings b index op seen slots)
      ↔ (slots.map Prod.snd).Nodup ∧ (∀ slot ∈ slots, slot.2 ∉ seen)
        ∧ ∀ slot ∈ slots, Acceptable typed (s.slotFindings b index op slot.1 slot.2) := by
  induction slots generalizing seen with
  | nil => simp [slotsFindings]
  | cons slot rest ih =>
      obtain ⟨arg, label⟩ := slot
      rw [slotsFindings]
      by_cases known : label ∈ seen
      · rw [if_pos (List.contains_iff_mem.mpr known)]
        apply iff_of_false (by simp)
        intro fine
        exact fine.2.1 (arg, label) List.mem_cons_self known
      · rw [if_neg (mt List.contains_iff_mem.mp known), acceptable_append, ih]
        simp only [List.map_cons, List.nodup_cons, List.mem_map, not_exists, not_and, List.mem_cons,
          not_or, forall_eq_or_imp]
        constructor
        · intro fine
          obtain ⟨front, unique, apart, others⟩ := fine
          exact ⟨⟨fun slot member => (apart slot member).1, unique⟩,
            ⟨known, fun slot member => (apart slot member).2⟩, front, others⟩
        · intro fine
          obtain ⟨⟨apart, unique⟩, ⟨-, fresh⟩, front, others⟩ := fine
          exact ⟨front, unique, fun slot member => ⟨apart slot member, fresh slot member⟩, others⟩

/-- The numbers of arguments, labels and predecessors are acceptable if they are one. -/
theorem acceptable_slotCount
    : Acceptable typed (s.slotCount b index op)
      ↔ op.args.length = op.labels.length ∧ op.labels.length = (s.cfg.preds b).length := by
  dsimp only [slotCount]
  split
  · next same => exact iff_of_true acceptable_nil same
  · next different => exact iff_of_false (by simp) different

/-- What is asked of the slots of a phi. -/
structure PhiFits (s : Subject) (typed : Bool) (b : s.cfg.Block) (op : Operation) : Prop where
  outside_entry : b ≠ s.cfg.entry
  args_length : op.args.length = op.labels.length
  labels_length : op.labels.length = (s.cfg.preds b).length
  labels_nodup : op.labels.Nodup
  slots_fit : ∀ arg label, (arg, label) ∈ op.slots → s.SlotFits typed b op arg label

/-- A phi that no other operation comes before is acceptable if its slots fit. -/
theorem acceptable_phiFindings (proper : s.cfg.Proper) {afterOther : Bool}
    : Acceptable typed (s.phiFindings b index op afterOther)
      ↔ afterOther = false ∧ s.PhiFits typed b op := by
  have position : Acceptable typed
      (if afterOther then
        [s.cfg.operationError b index op .phiNotAtBlockTop "phi follows a non-phi instruction"]
      else []) ↔ afterOther = false := by
    cases afterOther <;> simp
  rw [phiFindings, acceptable_append, position]
  apply and_congr_right
  intro _
  split
  · next inEntry => exact iff_of_false (by simp) fun fits => fits.outside_entry inEntry
  · next outside =>
      rw [acceptable_append, acceptable_slotCount, acceptable_slotsFindings]
      simp only [acceptable_slotFindings proper, List.not_mem_nil, not_false_eq_true,
        implies_true, true_and, Prod.forall]
      constructor
      · intro fine
        obtain ⟨⟨args, labels⟩, unique, fit⟩ := fine
        rw [Operation.slots, List.map_snd_zip (Nat.le_of_eq args.symm)] at unique
        exact ⟨outside, args, labels, unique, fit⟩
      · intro fits
        obtain ⟨-, args, labels, unique, fit⟩ := fits
        rw [Operation.slots, List.map_snd_zip (Nat.le_of_eq args.symm)]
        exact ⟨⟨args, labels⟩, unique, fit⟩

/-- The phis of a block are acceptable if they come before its other operations and their slots fit;
by induction on the operations still to look at.
-/
theorem acceptable_phisFindings (proper : s.cfg.Proper)
    {afterOther : Bool} {ops : List (Operation × Nat)}
    : Acceptable typed (s.phisFindings b afterOther ops)
      ↔ (∀ x ∈ if afterOther then ops else ops.dropWhile fun x => x.1.isPhi, x.1.isPhi = false)
        ∧ ∀ x ∈ ops, x.1.isPhi = true → s.PhiFits typed b x.1 := by
  induction ops generalizing afterOther with
  | nil => simp [phisFindings]
  | cons x rest ih =>
      obtain ⟨op, index⟩ := x
      rw [phisFindings]
      by_cases phi : op.isPhi = true
      · rw [if_pos phi, acceptable_append, acceptable_phiFindings proper, ih]
        cases afterOther with
        | true => simp [phi]
        | false =>
            simp only [phi, true_and, Bool.false_eq_true, ↓reduceIte, List.dropWhile_cons,
              List.mem_cons, forall_eq_or_imp, forall_const]
            exact and_left_comm
      · rw [if_neg phi, ih]
        cases afterOther <;> simp [phi]

-----------------------------------------------------------------------------------------
-- Uses
-----------------------------------------------------------------------------------------

/-- What is asked of the site of a definition for a use at a position of a block. -/
def ComesFirst (s : Subject) (b : s.cfg.Block) (index : Nat) : Option (s.cfg.Block × Nat) → Prop
  | none => True
  | some (block, defIndex) =>
    if block = b then defIndex < index else s.tree.strictlyDominates block b = true

/-- A definition before a use is acceptable. -/
theorem acceptable_orderFindings {arg : String} {d : SiteDef s.cfg}
    : Acceptable typed (s.orderFindings b index op arg d) ↔ s.ComesFirst b index d.site := by
  unfold orderFindings ComesFirst
  cases site : d.site with
  | none => simp
  | some place =>
      obtain ⟨block, defIndex⟩ := place
      by_cases same : block = b
      · by_cases late : index ≤ defIndex
        · simp [same, late]
        · simp [same, late, Nat.lt_of_not_le late]
      · by_cases above : s.tree.strictlyDominates block b = true
        · simp [same, above]
        · simp [same, above]

/-- A use is acceptable if the variable has a definition, which comes first if that is to be
checked.
-/
theorem acceptable_useFindings {arg : String}
    : Acceptable typed (s.useFindings b index op arg)
      ↔ ∃ d, s.siteOf? arg = some d
        ∧ (s.Checks b → s.ComesFirst b index d.site) := by
  unfold useFindings
  cases found : s.siteOf? arg with
  | none => simp
  | some d =>
      simp only [Option.some.injEq, exists_eq_left', Checks, ← Bool.and_eq_true]
      split
      · next checked => simp [checked, acceptable_orderFindings]
      · next free => simp [free]

/-- The uses of a block are acceptable if each is. -/
theorem acceptable_usesFindings
    : Acceptable typed (s.usesFindings b)
      ↔ ∀ index op, (s.cfg.body b)[index]? = some op → op.isPhi = false → ∀ arg ∈ op.args,
          ∃ d, s.siteOf? arg = some d
            ∧ (s.Checks b → s.ComesFirst b index d.site) := by
  rw [usesFindings, acceptable_flatMap]
  simp only [Prod.forall, List.mk_mem_zipIdx_iff_getElem?]
  constructor
  · intro fine index op found other arg member
    have uses := fine op index found
    rw [if_neg (by simp [other]), acceptable_flatMap] at uses
    exact acceptable_useFindings.mp (uses arg member)
  · intro fine op index found
    split
    · exact acceptable_nil
    · next other =>
        apply acceptable_flatMap.mpr
        intro arg member
        exact acceptable_useFindings.mpr
          (fine index op found (by simpa using other) arg member)

-----------------------------------------------------------------------------------------
-- Blocks
-----------------------------------------------------------------------------------------

/-- What is asked of a block, whether it is reachable or not. -/
structure BlockFits (s : Subject) (typed : Bool) (b : s.cfg.Block) : Prop where
  phis_first : ∀ op ∈ (s.cfg.body b).dropWhile Operation.isPhi, op.isPhi = false
  phis_fit : ∀ op ∈ s.cfg.body b, op.isPhi = true → s.PhiFits typed b op
  uses_fit : ∀ index op, (s.cfg.body b)[index]? = some op → op.isPhi = false → ∀ arg ∈ op.args,
    ∃ d, s.siteOf? arg = some d ∧ (s.Checks b → s.ComesFirst b index d.site)

/-- A block is acceptable if its phis and uses are: that it is not reachable is only a warning. -/
theorem acceptable_blockFindings (proper : s.cfg.Proper)
    : Acceptable typed (s.blockFindings b) ↔ s.BlockFits typed b := by
  have reach (warning : Diagnostic) (mild : warning.isError = false)
      : Acceptable typed (if s.tree.isReachable b then [] else [warning]) := by
    split <;> simp [acceptable_cons, mild]
  have operations : (s.cfg.body b).zipIdx.map Prod.fst = s.cfg.body b := List.zipIdx_map_fst 0 _
  have top : (∀ x ∈ (s.cfg.body b).zipIdx.dropWhile fun x => x.1.isPhi, x.1.isPhi = false)
      ↔ ∀ op ∈ (s.cfg.body b).dropWhile Operation.isPhi, op.isPhi = false := by
    conv_rhs => rw [← operations, List.dropWhile_map, List.forall_mem_map]
    rfl
  have each : (∀ x ∈ (s.cfg.body b).zipIdx, x.1.isPhi = true → s.PhiFits typed b x.1)
      ↔ ∀ op ∈ s.cfg.body b, op.isPhi = true → s.PhiFits typed b op := by
    conv_rhs => rw [← operations, List.forall_mem_map]
  rw [blockFindings, acceptable_append, acceptable_append, acceptable_phisFindings proper,
    acceptable_usesFindings]
  simp only [Bool.false_eq_true, ↓reduceIte, top, each]
  constructor
  · intro fine
    obtain ⟨⟨-, first, phis⟩, uses⟩ := fine
    exact ⟨first, phis, uses⟩
  · intro fits
    obtain ⟨first, phis, uses⟩ := fits
    exact ⟨⟨reach _ rfl, first, phis⟩, uses⟩

/-- A function is acceptable if its definitions are distinct and each block is. -/
theorem acceptable_findings (proper : s.cfg.Proper)
    : Acceptable typed s.findings
      ↔ (s.sites.map SiteDef.var).Nodup ∧ ∀ b, s.BlockFits typed b := by
  rw [findings, acceptable_append, acceptable_redefinitions, acceptable_flatMap]
  simp only [acceptable_blockFindings proper, FlowGraph.mem_blocks, forall_const,
    List.not_mem_nil, false_implies, implies_true, and_true]

end Subject

end ThreeAddress
