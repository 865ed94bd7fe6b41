import Mathlib.Data.List.Flatten
import ThreeAddress.Proofs.Simplify.Cleanup
import ThreeAddress.Proofs.Simplify.DeadTails
import ThreeAddress.Proofs.Simplify.Readings
import ThreeAddress.Proofs.Verification.Scoping

/-! Cleanups keep single assignment form. Value numbering sends uses to variables that are in scope,
and a round of removals takes away only definitions that nothing uses.
-/

namespace ThreeAddress

-----------------------------------------------------------------------------------------
-- Value numbering keeps names in scope
-----------------------------------------------------------------------------------------

/-- Being in scope as a notion of value: a result is in scope, and so are operands. -/
def scopeReading : Reading Prop where
  Performs _ _ operands value := (∀ operand ∈ operands, operand) ∧ value
  Scalar _ := True

/-- Numbering may rely on scopes. -/
theorem lawful_scopeReading : scopeReading.Lawful where
  literal performs := ⟨by simp, performs.2⟩
  literal_unique is is' := propext (iff_of_true is.2 is'.2)
  copied performs := propext (iff_of_true performs.2 (performs.1 _ (by simp)))
  copies performs := ⟨fun _ member => List.mem_singleton.mp member ▸ performs.2, performs.2⟩
  bare _ performs := performs
  unique _ performs performs' := propext (iff_of_true performs.2 performs'.2)
  reorders _ perm performs := ⟨fun operand member => performs.1 operand (perm.mem_iff.mpr member),
    performs.2⟩
  folds _ _ performs := ⟨by simp, performs.2⟩
  compares _ _ performs := ⟨by simp, performs.2⟩

/-- A destination is in scope behind its operation. -/
theorem assign_inScope (scope : Env Prop) (dest : Option String)
    : scope.assign dest True = fun var => scope var ∨ dest = some var := by
  funext var
  by_cases own : dest = some var
  · simp [Env.assign, own]
  · simp [Env.assign, own]

/-- If the names that a table has are in scope, then an operation that is numbered uses names in
scope if the operation did, and the names behind it are in scope there.
-/
theorem visit_inScope {scope : Env Prop} {table : ValueTable}
    (explains : scopeReading.Explains table scope) {op : Operation}
    (uses : op.isPhi = false → ∀ arg ∈ op.args, scope arg)
    : scopeReading.Explains (table.visit op).2 (fun var => scope var ∨ op.dest = some var)
      ∧ (op.isPhi = false → ∀ arg ∈ (table.visit op).1.args, scope arg) := by
  have fits : scopeReading.Fits True op.ty := fun _ => trivial
  rw [← assign_inScope]
  cases phi : op.isPhi with
  | true => exact ⟨explains.visit_phi phi fits, nofun⟩
  | false =>
      have all (args : List String)
          : (∀ operand ∈ args.map scope, operand) ↔ ∀ arg ∈ args, scope arg :=
        List.forall_mem_map
      have performs : scopeReading.Performs op.opcode op.value (op.args.map scope) True :=
        ⟨(all op.args).mpr (uses phi), trivial⟩
      obtain ⟨after, performs'⟩ := explains.visit lawful_scopeReading phi fits fun _ => performs
      refine ⟨after, fun _ => (all _).mp ?_⟩
      cases pure : op.opcode.isPure with
      | true => exact (performs' pure).1
      | false =>
          obtain ⟨args, same, read⟩ := explains.visit_effect pure
          simp only [same, read]
          exact performs.1

/-- Value numbering keeps uses in scope, by induction on the operations. -/
theorem UsesInScope.numberOperations {scope : String → Prop} {table : ValueTable}
    {ops : List Operation} (explains : scopeReading.Explains table scope)
    (uses : UsesInScope scope ops)
    : UsesInScope scope (numberOperations table ops) := by
  induction ops generalizing scope table with
  | nil => trivial
  | cons op rest ih =>
      obtain ⟨here, later⟩ := uses
      obtain ⟨after, here'⟩ := visit_inScope explains here
      have simplifies := table.visit_simplifies op
      rw [ThreeAddress.numberOperations, UsesInScope, simplifies.isPhi_eq, simplifies.dest_eq]
      exact ⟨here', ih after later⟩

/-- What a block defines is told from the destinations of its operations. -/
theorem defines_iff {ops : List Operation} {var : String}
    : Defines ops var ↔ some var ∈ ops.map Operation.dest := by
  simp [Defines]

/-- Numbered operations define the same variables. -/
theorem defines_numberOperations {table : ValueTable} {ops : List Operation} {var : String}
    : Defines (numberOperations table ops) var ↔ Defines ops var := by
  rw [defines_iff, defines_iff, map_numberOperations Operation.Simplifies.dest_eq]

/-- The phis of a numbered block are those of the block, by induction on the operations. -/
theorem mem_of_mem_numberOperations {table : ValueTable} {ops : List Operation} {op : Operation}
    (member : op ∈ numberOperations table ops) (phi : op.isPhi = true)
    : op ∈ ops := by
  induction ops generalizing table with
  | nil => exact member
  | cons first rest ih =>
      rcases List.mem_cons.mp member with same | later
      · have simplifies := table.visit_simplifies first
        rw [same, simplifies.isPhi_eq] at phi
        exact List.mem_cons.mpr (.inl (same.trans (simplifies.eq_of_isPhi phi)))
      · exact List.mem_cons_of_mem _ (ih later)

section Scoped

variable {g : FlowGraph} {labelOf : g.Block → String} {bodyOf : g.Block → List Operation}
  {f : Function} {config : VerifierConfig}

/-- Value numbering keeps names in scope. -/
theorem Scoped.numberValues (fits : Scoped g labelOf bodyOf f config)
    : Scoped g labelOf (fun b => numberOperations .empty (bodyOf b)) f.numberValues.1 config := by
  have definitions : f.numberValues.1.definitions = f.definitions := by
    rw [← Function.map_fst_typedDefinitions, ← Function.map_fst_typedDefinitions,
      f.typedDefinitions_numberValues]
  have start : InScopeAtStart g (fun b => numberOperations .empty (bodyOf b)) f.numberValues.1 config
      = InScopeAtStart g bodyOf f config := by
    funext b var
    simp only [InScopeAtStart, defines_numberOperations]
    rfl
  have finish : InScopeAtEnd g (fun b => numberOperations .empty (bodyOf b)) f.numberValues.1 config
      = InScopeAtEnd g bodyOf f config := by
    funext b var
    simp only [InScopeAtEnd, defines_numberOperations]
    rfl
  constructor
  case definitions_nodup => exact definitions ▸ fits.definitions_nodup
  case phis_first =>
    intro b
    have shape := map_numberOperations Operation.Simplifies.isPhi_eq .empty (bodyOf b)
    have tops (ops : List Operation)
        : (∀ op ∈ ops.dropWhile Operation.isPhi, op.isPhi = false)
          ↔ ∀ phi ∈ (ops.map Operation.isPhi).dropWhile id, phi = false := by
      rw [List.dropWhile_map, List.forall_mem_map]
      rfl
    rw [tops, shape, ← tops]
    exact fits.phis_first b
  case phis =>
    intro b op member isPhi
    obtain ⟨outside, args, labels, distinct, slots⟩ :=
      fits.phis b op (mem_of_mem_numberOperations member isPhi) isPhi
    refine ⟨outside, args, labels, distinct, ?_⟩
    rw [finish, f.typedDefinitions_numberValues]
    exact slots
  case uses =>
    intro b
    rw [start]
    exact (fits.uses b).numberOperations (scopeReading.explains_empty _)

end Scoped

-----------------------------------------------------------------------------------------
-- Removal keeps names in scope
-----------------------------------------------------------------------------------------

/-- A pure operation computes a variable that nothing uses. -/
def Operation.isUnused (used : NameSet) (op : Operation) : Bool :=
  op.opcode.isPure && op.dest.any fun var => !used.contains var

/-- What is overwritten is defined again. -/
theorem defines_of_isOverwritten {var : String} {ops : List Operation}
    (covered : isOverwritten var (ops.map .operation) = true)
    : Defines ops var := by
  induction ops with
  | nil => simp [isOverwritten] at covered
  | cons op rest ih =>
      simp only [List.map_cons, isOverwritten] at covered
      split at covered
      · cases covered
      · rcases Bool.or_eq_true_iff.mp covered with own | later
        · exact ⟨op, List.mem_cons_self, by simpa using own⟩
        · obtain ⟨other, member, defines⟩ := ih later
          exact ⟨other, List.mem_cons_of_mem _ member, defines⟩

/-- In a block that defines no variable twice, a round of removals takes away what is unused. By
induction on the operations.
-/
theorem sweep_eq_filter (used : NameSet) {ops : List Operation}
    (straight : ∀ op ∈ ops.dropLast, op.isTerminator = false)
    (once : (ops.filterMap Operation.dest).Nodup)
    : sweep used false ops = ops.filter fun op => !op.isUnused used := by
  induction ops with
  | nil => rfl
  | cons op rest ih =>
      have once' : (rest.filterMap Operation.dest).Nodup :=
        once.sublist ((List.sublist_cons_self op rest).filterMap _)
      have later : sweep used op.isTerminator rest = rest.filter fun op => !op.isUnused used := by
        cases rest with
        | nil => rfl
        | cons next rest =>
            rw [List.dropLast_cons_of_ne_nil (List.cons_ne_nil next rest)] at straight
            rw [straight op List.mem_cons_self]
            exact ih (fun other member => straight other (List.mem_cons_of_mem _ member)) once'
      have dead : op.isDead used (rest.map .operation) = op.isUnused used := by
        cases defines : op.dest with
        | none => simp [Operation.isDead, Operation.isUnused, defines]
        | some var =>
            have single : isOverwritten var (rest.map .operation) = false := by
              by_contra covered
              obtain ⟨other, member, again⟩ :=
                defines_of_isOverwritten (Bool.eq_true_of_not_eq_false covered)
              rw [List.filterMap_cons_some defines, List.nodup_cons] at once
              exact once.1 (List.mem_filterMap.mpr ⟨other, member, again⟩)
            simp [Operation.isDead, Operation.isUnused, defines, single]
      simp only [sweep, Bool.false_or, later, dead, List.filter_cons]
      cases op.isUnused used <;> rfl

/-- Leaving out operations leaves phis at the top, by induction on the operations. -/
theorem phisFirst_filter {keep : Operation → Bool} {ops : List Operation}
    (tops : ∀ op ∈ ops.dropWhile Operation.isPhi, op.isPhi = false)
    : ∀ op ∈ (ops.filter keep).dropWhile Operation.isPhi, op.isPhi = false := by
  induction ops with
  | nil => simp
  | cons first rest ih =>
      cases phi : first.isPhi with
      | true =>
          rw [List.dropWhile_cons_of_pos phi] at tops
          cases kept : keep first with
          | true =>
              rw [List.filter_cons_of_pos kept, List.dropWhile_cons_of_pos phi]
              exact ih tops
          | false =>
              rw [List.filter_cons_of_neg (by simp [kept])]
              exact ih tops
      | false =>
          rw [List.dropWhile_cons_of_neg (by simp [phi])] at tops
          intro op member
          exact tops op (List.mem_filter.mp ((List.dropWhile_sublist _).subset member)).1

/-- Operations that define no used name may be left out: the others use names that are still in
scope. By induction on the operations.
-/
theorem UsesInScope.filter {scope scope' used : String → Prop} {keep : Operation → Bool}
    {ops : List Operation} (uses : UsesInScope scope ops)
    (args : ∀ op ∈ ops, ∀ arg ∈ op.args, used arg)
    (unused : ∀ op ∈ ops, keep op = false → ∀ var, op.dest = some var → ¬ used var)
    (still : ∀ var, used var → scope var → scope' var)
    : UsesInScope scope' (ops.filter keep) := by
  induction ops generalizing scope scope' with
  | nil => trivial
  | cons op rest ih =>
      obtain ⟨here, later⟩ := uses
      rw [List.forall_mem_cons] at args unused
      cases kept : keep op with
      | true =>
          rw [List.filter_cons_of_pos kept]
          refine ⟨fun ordinary arg member => ?_, ?_⟩
          · exact still arg (args.1 arg member) (here ordinary arg member)
          · exact ih later args.2 unused.2 fun var known => Or.imp_left (still var known)
      | false =>
          rw [List.filter_cons_of_neg (by simp [kept])]
          refine ih later args.2 unused.2 fun var known inside => still var known ?_
          exact inside.resolve_right fun own => unused.1 kept var own known

section Scoped

variable {g : FlowGraph} {labelOf : g.Block → String} {bodyOf : g.Block → List Operation}
  {f f' : Function} {config : VerifierConfig}

/-- Operations that define no used name may be left out of a function. -/
theorem Scoped.filter (fits : Scoped g labelOf bodyOf f config) {keep : Operation → Bool}
    (params : f'.params = f.params)
    (definitions : f'.typedDefinitions.Sublist f.typedDefinitions) {used : String → Prop}
    (args : ∀ b, ∀ op ∈ bodyOf b, ∀ arg ∈ op.args, used arg)
    (unused : ∀ b, ∀ op ∈ bodyOf b, keep op = false → ∀ var, op.dest = some var → ¬ used var)
    : Scoped g labelOf (fun b => (bodyOf b).filter keep) f' config := by
  have isParam {var : String} (param : f.IsParam var) : f'.IsParam var := by
    rw [Function.IsParam, params]
    exact param
  have defines {c : g.Block} {var : String} (known : used var) (defined : Defines (bodyOf c) var)
      : Defines ((bodyOf c).filter keep) var := by
    obtain ⟨op, member, result⟩ := defined
    refine ⟨op, List.mem_filter.mpr ⟨member, ?_⟩, result⟩
    by_contra dropped
    exact unused c op member (Bool.eq_false_of_not_eq_true dropped) var result known
  constructor
  case definitions_nodup =>
    rw [← Function.map_fst_typedDefinitions]
    refine List.Nodup.sublist (definitions.map Prod.fst) ?_
    rw [Function.map_fst_typedDefinitions]
    exact fits.definitions_nodup
  case phis_first => exact fun b => phisFirst_filter (fits.phis_first b)
  case phis =>
    intro b op member isPhi
    have old := (List.mem_filter.mp member).1
    obtain ⟨outside, args', labels, distinct, slots⟩ := fits.phis b op old isPhi
    refine ⟨outside, args', labels, distinct, fun arg label slot => ?_⟩
    obtain ⟨pred, edge, same, fit⟩ := slots arg label slot
    refine ⟨pred, edge, same, fun named => ?_⟩
    obtain ⟨inside, types⟩ := fit named
    have known := args b op old arg (List.of_mem_zip slot).1
    refine ⟨inside.imp isParam fun ⟨c, defined, above⟩ => ⟨c, defines known defined, above⟩, ?_⟩
    exact fun expected found phi declared => types expected found phi (definitions.subset declared)
  case uses =>
    intro b
    refine (fits.uses b).filter (args b) (unused b) fun var known inside => ?_
    exact inside.imp isParam fun ⟨c, defined, above⟩ => ⟨c, defines known defined, above⟩

end Scoped

/-- A round of removals only takes definitions away. -/
theorem Function.typedDefinitions_afterRound (f : Function)
    : f.afterRound.typedDefinitions.Sublist f.typedDefinitions :=
  ((removalRound_sublist f.body).filterMap _).filterMap _ |>.append_left _

/-- The definitions in a block are definitions of the function. -/
theorem Function.definitions_body {f : Function} {allow : Bool} {g : Cfg}
    (ok : Cfg.ofFunction? f allow = .ok g) (b : g.Block)
    : ((g.body b).filterMap Operation.dest).Sublist f.definitions := by
  rw [definitions, operations_eq_flatMap ok, List.filterMap_flatMap]
  refine List.Sublist.trans ?_ (List.sublist_append_right _ _)
  simpa using (List.singleton_sublist.mpr (g.mem_blocks b)).flatMap fun b =>
    (g.body b).filterMap Operation.dest

/-- A round of removals keeps names in scope. -/
theorem Scoped.afterRound {g : Cfg} {f : Function} {config : VerifierConfig} {allow : Bool}
    (ok : Cfg.ofFunction? f allow = .ok g)
    (fits : Scoped g.toFlowGraph g.label g.body f config)
    : Scoped g.toFlowGraph g.label (fun b => sweep (usedNames f.body) false (g.body b)) f.afterRound
        config := by
  have filtered : (fun b => sweep (usedNames f.body) false (g.body b))
      = fun b => (g.body b).filter fun op => !op.isUnused (usedNames f.body) := by
    funext b
    exact sweep_eq_filter _ ((Cfg.proper_of_ok ok).terminator_last b)
      (fits.definitions_nodup.sublist (Function.definitions_body ok b))
  rw [filtered]
  have args (b : g.Block) (op : Operation) (member : op ∈ g.body b) (arg : String)
      (used : arg ∈ op.args)
      : (usedNames f.body).contains arg = true := by
    have listed := Function.mem_operations_of_mem_body ok member
    exact contains_usedNames.mpr ⟨op, Function.mem_operations.mp listed, used⟩
  refine fits.filter rfl f.typedDefinitions_afterRound args fun b op _ dropped var defines => ?_
  have unused : op.isUnused (usedNames f.body) = true := by simpa using dropped
  have absent := (Bool.and_eq_true_iff.mp unused).2
  simp only [defines, Option.any_some, Bool.not_eq_true'] at absent
  simp only [absent, Bool.false_eq_true, not_false_eq_true]

-----------------------------------------------------------------------------------------
-- Cleaned functions
-----------------------------------------------------------------------------------------

/-- The graph with its operations changed has the same edges and labels. -/
theorem Cfg.scoped_refill {g : Cfg} {change : List Operation → List Operation} {added : Bool}
    {f : Function} {config : VerifierConfig}
    : Scoped (g.refill change added).toFlowGraph (g.refill change added).label
          (g.refill change added).body f config
      ↔ Scoped g.toFlowGraph g.label (fun b => change (g.body b)) f config := by
  have labels : (g.refill change added).label = g.label := funext (label_refill g)
  have bodies : (g.refill change added).body = fun b => change (g.body b) :=
    funext (body_refill g)
  rw [labels, bodies]
  exact Iff.rfl

/-- If a function that starts with a label is rewritten so that names stay in scope, then no errors
are reported of it after that if none were before.
-/
theorem Function.Rewrites.hasErrors_eq_false {change : List Operation → List Operation}
    {f f' : Function} (rewrites : Rewrites change f f') (keeps : KeepsEnds change)
    {config : VerifierConfig} (unlimited : config.maxDiagnostics = 0)
    (labelled : f.firstLabel?.isSome = true)
    (inScope
      : ∀ g, Cfg.ofFunction? f config.allowUnreachable = .ok g →
          Scoped g.toFlowGraph g.label g.body f config →
          Scoped g.toFlowGraph g.label (fun b => change (g.body b)) f' config)
    (clean : (config.verifyFunction f).hasErrors = false)
    : (config.verifyFunction f').hasErrors = false := by
  rw [VerifierConfig.hasErrors_verifyFunction_iff_scoped unlimited] at clean ⊢
  obtain ⟨g, ok, fits⟩ := clean
  have nonempty : f'.body ≠ [] := by
    intro empty
    rw [← rewrites.firstLabel?_eq keeps labelled, firstLabel?, empty] at labelled
    cases labelled
  have same := rewrites.needsEntry_eq keeps (wellFormed_of_ok ok).terminators_last labelled
  exact ⟨_, rewrites.ofFunction?_eq_ok keeps ok nonempty same,
    Cfg.scoped_refill.mpr (inScope g ok fits)⟩

/-- If no error is reported of a function that starts with a label, whatever is checked, then none
is reported of it after any passes. By induction on the passes.
-/
theorem VerifierConfig.hasErrors_verifyFunction_runPasses {config : VerifierConfig}
    (unlimited : config.maxDiagnostics = 0) {f : Function} (labelled : f.firstLabel?.isSome = true)
    (clean : (config.verifyFunction f).hasErrors = false) (passes : List Pass)
    : (config.verifyFunction (runPasses passes f).1).hasErrors = false := by
  have numbering (f : Function)
      : f.firstLabel?.isSome = true ∧ (config.verifyFunction f).hasErrors = false →
        f.numberValues.1.firstLabel?.isSome = true
          ∧ (config.verifyFunction f.numberValues.1).hasErrors = false := by
    rintro ⟨labelled, clean⟩
    have rewrites := f.rewrites_numberValues
    refine ⟨rewrites.firstLabel?_eq keepsEnds_numberOperations labelled ▸ labelled, ?_⟩
    exact rewrites.hasErrors_eq_false keepsEnds_numberOperations unlimited labelled
      (fun g _ fits => fits.numberValues) clean
  have round (f : Function)
      : f.firstLabel?.isSome = true ∧ (config.verifyFunction f).hasErrors = false →
        f.afterRound.firstLabel?.isSome = true
          ∧ (config.verifyFunction f.afterRound).hasErrors = false := by
    rintro ⟨labelled, clean⟩
    have rewrites := f.rewrites_afterRound
    refine ⟨rewrites.firstLabel?_eq (keepsEnds_sweep _) labelled ▸ labelled, ?_⟩
    exact rewrites.hasErrors_eq_false (keepsEnds_sweep _) unlimited labelled
      (fun g ok fits => fits.afterRound ok) clean
  exact (runPasses_induction numbering round passes ⟨labelled, clean⟩).2

/-- A counter in single assignment form that computes its next value twice. -/
def recountingLoop : Function where
  name := "count"
  params := [{ name := "limit", ty := .int }, { name := "one", ty := .int }]
  body := [
    .label "start",
    .operation { opcode := .const, dest := "zero", ty := some .int, value := some (.int 0) },
    .label "loop",
    .operation
      { opcode := .phi, dest := "i", ty := some .int, args := ["zero", "next"],
        labels := ["start", "loop"] },
    .operation { opcode := .add, dest := "next", ty := some .int, args := ["i", "one"] },
    .operation { opcode := .add, dest := "again", ty := some .int, args := ["one", "i"] },
    .operation { opcode := .lt, dest := "more", ty := some .bool, args := ["again", "limit"] },
    .operation { opcode := .br, args := ["more"], labels := ["done", "loop"] },
    .label "done",
    .operation { opcode := .ret, args := ["next"] }]

/-- No error is reported of the loop, so none is reported when it has been cleaned. -/
theorem hasErrors_verifyFunction_runPasses_recountingLoop
    : recountingLoop.firstLabel?.isSome = true
      ∧ (VerifierConfig.verifyFunction { maxDiagnostics := 0 } recountingLoop).hasErrors = false
      ∧ (VerifierConfig.verifyFunction { maxDiagnostics := 0 }
          (runPasses [.valueNumbering, .deadCode] recountingLoop).1).hasErrors = false := by
  have labelled : recountingLoop.firstLabel?.isSome = true := rfl
  have clean
      : (VerifierConfig.verifyFunction { maxDiagnostics := 0 } recountingLoop).hasErrors = false := by
    cbv
  refine ⟨labelled, clean, ?_⟩
  exact VerifierConfig.hasErrors_verifyFunction_runPasses rfl labelled clean
    [.valueNumbering, .deadCode]

end ThreeAddress
