import ThreeAddress.Proofs.Verification.Acceptance

/-! What a verification with any settings asks of a function, told by the scope of names: operations
use names in scope, and the arguments of phis are in scope at the end of the blocks they come from.
-/

namespace ThreeAddress

-----------------------------------------------------------------------------------------
-- Scopes in a block
-----------------------------------------------------------------------------------------

/-- Some of the operations defines the variable. -/
def Defines (ops : List Operation) (var : String) : Prop :=
  ∃ op ∈ ops, op.dest = some var

/-- Each operation but a phi uses names in scope: those in scope in front of all operations, and
those that operations in front of it define.
-/
def UsesInScope : (String → Prop) → List Operation → Prop
  | _, [] => True
  | scope, op :: rest =>
    (op.isPhi = false → ∀ arg ∈ op.args, scope arg)
      ∧ UsesInScope (fun var => scope var ∨ op.dest = some var) rest

/-- The same said of positions, by induction on the operations. -/
theorem usesInScope_iff {scope : String → Prop} {ops : List Operation}
    : UsesInScope scope ops
      ↔ ∀ (index : Nat) (op : Operation), ops[index]? = some op → op.isPhi = false →
          ∀ arg ∈ op.args, scope arg ∨ ∃ before < index, ∃ earlier : Operation,
            ops[before]? = some earlier ∧ earlier.dest = some arg := by
  induction ops generalizing scope with
  | nil => simp [UsesInScope]
  | cons first rest ih =>
      rw [UsesInScope, ih]
      constructor
      · rintro ⟨here, later⟩ (_ | index) op found ordinary arg used
        · obtain rfl := Option.some.inj found
          exact .inl (here ordinary arg used)
        · rcases later index op found ordinary arg used with (known | own) | ⟨before, less, defines⟩
          · exact .inl known
          · exact .inr ⟨0, Nat.succ_pos index, first, rfl, own⟩
          · exact .inr ⟨before + 1, Nat.succ_lt_succ less, defines⟩
      · intro all
        refine ⟨fun ordinary arg used => ?_, fun index op found ordinary arg used => ?_⟩
        · refine (all 0 first rfl ordinary arg used).resolve_right ?_
          rintro ⟨before, less, -⟩
          exact Nat.not_lt_zero before less
        · rcases all (index + 1) op found ordinary arg used
            with known | ⟨_ | before, less, earlier, at', defines⟩
          · exact .inl (.inl known)
          · exact .inl (.inr (Option.some.inj at' ▸ defines))
          · exact .inr ⟨before, Nat.lt_of_succ_lt_succ less, earlier, at', defines⟩

-----------------------------------------------------------------------------------------
-- Scopes in a graph
-----------------------------------------------------------------------------------------

section Scoped

variable (g : FlowGraph) (labelOf : g.Block → String) (bodyOf : g.Block → List Operation)
  (f : Function) (config : VerifierConfig)

/-- Dominance is checked of what is used in the block or at its end. -/
def ChecksIn (b : g.Block) : Prop :=
  config.checksDominance = true ∧ g.domTree.isReachable b = true

/-- The variable is in scope where the block starts: it is a parameter, or is defined in a block
that strictly dominates this one if that is checked.
-/
def InScopeAtStart (b : g.Block) (var : String) : Prop :=
  f.IsParam var
    ∨ ∃ c, Defines (bodyOf c) var ∧ (ChecksIn g config b → g.domTree.strictlyDominates c b = true)

/-- The variable is in scope where the block ends: it is a parameter, or is defined in a block that
dominates this one if that is checked.
-/
def InScopeAtEnd (b : g.Block) (var : String) : Prop :=
  f.IsParam var
    ∨ ∃ c, Defines (bodyOf c) var ∧ (ChecksIn g config b → g.domTree.dominates c b = true)

/-- A phi has one slot for each edge into its block, outside the entry, with an argument that is in
scope at the end of the block the edge comes from and does not declare another type.
-/
structure PhiScoped (b : g.Block) (op : Operation) : Prop where
  outside_entry : b ≠ g.entry
  args_length : op.args.length = op.labels.length
  labels_length : op.labels.length = (g.preds b).length
  labels_nodup : op.labels.Nodup
  slots : ∀ arg label, (arg, label) ∈ op.slots → ∃ pred ∈ g.preds b, labelOf pred = label
    ∧ (arg ≠ config.undefName → InScopeAtEnd g bodyOf f config pred arg
      ∧ ∀ expected found, op.ty = some expected → (arg, some found) ∈ f.typedDefinitions →
          expected = found)

/-- What a verification with these settings asks of a function with these blocks. -/
structure Scoped : Prop where
  definitions_nodup : f.definitions.Nodup
  phis_first : ∀ b, ∀ op ∈ (bodyOf b).dropWhile Operation.isPhi, op.isPhi = false
  phis : ∀ b, ∀ op ∈ bodyOf b, op.isPhi = true → PhiScoped g labelOf bodyOf f config b op
  uses : ∀ b, UsesInScope (InScopeAtStart g bodyOf f config b) (bodyOf b)

end Scoped

namespace Cfg

variable {g : Cfg} {f : Function} {config : VerifierConfig}

/-- Blocks define the variables that are defined at one of their positions. -/
theorem defines_body {b : g.Block} {var : String}
    : Defines (g.body b) var ↔ ∃ index, g.DefinedAt var b index := by
  simp only [Defines, List.mem_iff_getElem?, DefinedAt]
  exact ⟨fun ⟨op, ⟨index, at'⟩, defines⟩ => ⟨index, op, at', defines⟩,
    fun ⟨index, op, at', defines⟩ => ⟨op, ⟨index, at'⟩, defines⟩⟩

section unique

variable (unique : ((g.allSites f.params).map SiteDef.var).Nodup)

include unique

/-- A variable has a definition that comes before a use exactly when it is in scope where the block
of the use starts, or is defined in the block in front of the use.
-/
theorem use_scoped_iff {b : g.Block} {index : Nat} {var : String}
    : (∃ d, (g.subject f config).siteOf? var = some d
        ∧ ((g.subject f config).Checks b → (g.subject f config).ComesFirst b index d.site))
      ↔ InScopeAtStart g.toFlowGraph g.body f config b var
        ∨ ∃ before < index, g.DefinedAt var b before := by
  rw [exists_siteOf? unique (P := fun site =>
    (g.subject f config).Checks b → (g.subject f config).ComesFirst b index site)]
  constructor
  · rintro (⟨param, -⟩ | ⟨c, before, defined, first⟩)
    · exact .inl (.inl param)
    · by_cases earlier : c = b ∧ before < index
      · obtain ⟨rfl, less⟩ := earlier
        exact .inr ⟨before, less, defined⟩
      · refine .inl (.inr ⟨c, defines_body.mpr ⟨before, defined⟩, fun checked => ?_⟩)
        have comes : if c = b then before < index else g.domTree.strictlyDominates c b = true :=
          first checked
        split at comes
        · next same => exact absurd ⟨same, comes⟩ earlier
        · exact comes
  · rintro ((param | ⟨c, defines, above⟩) | ⟨before, less, defined⟩)
    · exact .inl ⟨param, fun _ => trivial⟩
    · obtain ⟨before, defined⟩ := defines_body.mp defines
      refine .inr ⟨c, before, defined, fun checked => ?_⟩
      have other : c ≠ b := by
        rintro rfl
        simpa [DomTree.strictlyDominates] using above checked
      exact (if_neg other).mpr (above checked)
    · exact .inr ⟨b, before, defined, fun _ => (if_pos rfl).mpr less⟩

/-- A variable has a definition that is there at the end of a block exactly when it is in scope
there.
-/
theorem slot_scoped_iff {p : g.Block} {var : String}
    : (∃ d, (g.subject f config).siteOf? var = some d
        ∧ ((g.subject f config).Checks p → (g.subject f config).isAvailableAtEnd d p = true))
      ↔ InScopeAtEnd g.toFlowGraph g.body f config p var := by
  refine (exists_siteOf? unique (P := fun site => (g.subject f config).Checks p →
    (g.subject f config).isAvailableAtEnd ⟨var, site, none⟩ p = true)).trans ?_
  refine or_congr (and_iff_left fun _ => rfl) (exists_congr fun c => ?_)
  rw [defines_body]
  exact ⟨fun ⟨index, defined, available⟩ => ⟨⟨index, defined⟩, available⟩,
    fun ⟨⟨index, defined⟩, available⟩ => ⟨index, defined, available⟩⟩

/-- The slots of a phi fit exactly when it is in scope. -/
theorem phiFits_iff_scoped {allow : Bool} (ok : ofFunction? f allow = .ok g) {b : g.Block}
    {op : Operation}
    : (g.subject f config).PhiFits true b op
      ↔ PhiScoped g.toFlowGraph g.label g.body f config b op := by
  constructor
  · rintro ⟨outside, args, labels, distinct, fit⟩
    refine ⟨outside, args, labels, distinct, fun arg label slot => ?_⟩
    obtain ⟨pred, edge, same, fits⟩ := fit arg label slot
    refine ⟨pred, edge, same, fun named => ?_⟩
    obtain ⟨d, site, types, available⟩ := fits named
    exact ⟨(slot_scoped_iff unique).mp ⟨d, site, available⟩, fun expected found phi defined =>
      types rfl expected found phi ((mem_typedDefinitions unique ok site).mp defined)⟩
  · rintro ⟨outside, args, labels, distinct, fit⟩
    refine ⟨outside, args, labels, distinct, fun arg label slot => ?_⟩
    obtain ⟨pred, edge, same, fits⟩ := fit arg label slot
    refine ⟨pred, edge, same, fun named => ?_⟩
    obtain ⟨inside, types⟩ := fits named
    obtain ⟨d, site, available⟩ := (slot_scoped_iff unique).mpr inside
    exact ⟨d, site, fun _ expected found phi declared => types expected found phi
      ((mem_typedDefinitions unique ok site).mpr declared), available⟩

end unique

/-- The findings about an accepted function are acceptable exactly if names are in scope. -/
theorem acceptable_iff_scoped {allow : Bool} (ok : ofFunction? f allow = .ok g)
    : Acceptable true (g.subject f config).findings
      ↔ Scoped g.toFlowGraph g.label g.body f config := by
  have vars : (g.allSites f.params).map SiteDef.var = f.definitions := map_var_allSites ok
  rw [Subject.acceptable_findings (s := g.subject f config) (proper_of_ok ok)]
  constructor
  · rintro ⟨unique, blocks⟩
    refine ⟨vars ▸ unique, fun b => (blocks b).phis_first,
      fun b op member isPhi => (phiFits_iff_scoped unique ok).mp
        ((blocks b).phis_fit op member isPhi),
      fun b => usesInScope_iff.mpr fun index op found ordinary arg used =>
        (use_scoped_iff unique).mp ((blocks b).uses_fit index op found ordinary arg used)⟩
  · intro fits
    have unique : ((g.allSites f.params).map SiteDef.var).Nodup := vars ▸ fits.definitions_nodup
    exact ⟨unique, fun b => ⟨fits.phis_first b,
      fun op member isPhi => (phiFits_iff_scoped unique ok).mpr (fits.phis b op member isPhi),
      fun index op found ordinary arg used => (use_scoped_iff unique).mpr
        (usesInScope_iff.mp (fits.uses b) index op found ordinary arg used)⟩⟩

end Cfg

namespace VerifierConfig

/-- Without a limit, no error is reported of a function exactly if it is accepted and names are in
scope.
-/
theorem hasErrors_verifyFunction_iff_scoped {config : VerifierConfig}
    (unlimited : config.maxDiagnostics = 0) {f : Function}
    : (config.verifyFunction f).hasErrors = false
      ↔ ∃ g, Cfg.ofFunction? f config.allowUnreachable = .ok g
        ∧ Scoped g.toFlowGraph g.label g.body f config := by
  cases graph : Cfg.ofFunction? f config.allowUnreachable with
  | error error =>
      simp only [reduceCtorEq, false_and, exists_false, iff_false, Bool.not_eq_false]
      rw [Report.hasErrors, verifyFunction, unlimited, Report.diagnostics_extend_zero, findings,
        graph]
      rfl
  | ok g =>
      rw [Report.hasErrors, diagnostics_verifyFunction graph unlimited, List.any_eq_false]
      simp only [Except.ok.injEq, exists_eq_left', ← Cfg.acceptable_iff_scoped graph, Acceptable]
      simp

end VerifierConfig

end ThreeAddress
