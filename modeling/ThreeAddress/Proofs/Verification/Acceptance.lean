import Mathlib.Data.List.Perm.Subperm
import ThreeAddress.Proofs.Verification.Findings
import ThreeAddress.Proofs.Verification.Reports

/-! The checks of a verification together: they find no error exactly in valid static single
assignment form.
-/

namespace ThreeAddress

/-- A phi with as many arguments as labels has a slot for each argument. -/
theorem Operation.map_fst_slots (op : Operation) (same : op.args.length = op.labels.length)
    : op.slots.map Prod.fst = op.args :=
  List.map_fst_zip (Nat.le_of_eq same)

/-- A phi with as many arguments as labels has a slot for each label. -/
theorem Operation.map_snd_slots (op : Operation) (same : op.args.length = op.labels.length)
    : op.slots.map Prod.snd = op.labels :=
  List.map_snd_zip (Nat.le_of_eq same.symm)

namespace Cfg

/-- A function with its graph, as it is verified. -/
def subject (g : Cfg) (f : Function) (config : VerifierConfig) : Subject :=
  { cfg := g, tree := g.domTree, sites := g.allSites f.params, config }

variable {g : Cfg} {f : Function} {config : VerifierConfig}

/-- Where dominance is checked, it is checked of all reachable blocks. -/
theorem checks_subject (checks : config.checksDominance = true) {b : g.Block}
    : (g.subject f config).Checks b ↔ g.domTree.isReachable b = true :=
  and_iff_right checks

-----------------------------------------------------------------------------------------
-- Sites
-----------------------------------------------------------------------------------------

section Sites

variable (unique : ((g.allSites f.params).map SiteDef.var).Nodup)

include unique

/-- A variable with a site that fits is a parameter or defined in a block, and fits there. -/
theorem exists_siteOf? {var : String} {P : Option (g.Block × Nat) → Prop}
    : (∃ d, (g.subject f config).siteOf? var = some d ∧ P d.site)
      ↔ f.IsParam var ∧ P none ∨ ∃ b index, g.DefinedAt var b index ∧ P (some (b, index)) := by
  simp only [Subject.siteOf?_eq_some (s := g.subject f config) unique]
  constructor
  · intro found
    obtain ⟨d, ⟨member, rfl⟩, holds⟩ := found
    rcases mem_allSites.mp member with ⟨site, p, param, name, -⟩
      | ⟨b, index, op, found, result, site, -⟩
    · exact .inl ⟨⟨p, param, name⟩, site ▸ holds⟩
    · exact .inr ⟨b, index, ⟨op, found, result⟩, site ▸ holds⟩
  · intro place
    rcases place with ⟨⟨p, param, rfl⟩, holds⟩ | ⟨b, index, ⟨op, found, result⟩, holds⟩
    · exact ⟨⟨p.name, none, some p.ty⟩,
        ⟨mem_allSites.mpr (.inl ⟨rfl, p, param, rfl, rfl⟩), rfl⟩, holds⟩
    · exact ⟨⟨var, some (b, index), op.ty⟩,
        ⟨mem_allSites.mpr (.inr ⟨b, index, op, found, result, rfl, rfl⟩), rfl⟩, holds⟩

/-- The site of a variable declares what the only definition of it does. -/
theorem mem_typedDefinitions {allow : Bool} (ok : ofFunction? f allow = .ok g) {var : String}
    {d : SiteDef g} (found : (g.subject f config).siteOf? var = some d) {ty : Option Ty}
    : (var, ty) ∈ f.typedDefinitions ↔ d.ty = ty := by
  obtain ⟨member, rfl⟩ := (Subject.siteOf?_eq_some (s := g.subject f config) unique).mp found
  rw [← map_allSites ok, List.mem_map]
  constructor
  · intro declared
    obtain ⟨e, other, same⟩ := declared
    obtain ⟨var, rfl⟩ := Prod.mk.inj same
    rw [List.inj_on_of_nodup_map unique other member var]
  · intro same
    subst same
    exact ⟨d, member, rfl⟩

/-- A definition that comes before a use is one that all paths to the use pass. -/
theorem use_fits_iff {b : g.Block} {index : Nat} {var : String}
    : (∃ d, (g.subject f config).siteOf? var = some d
        ∧ (g.domTree.isReachable b = true → (g.subject f config).ComesFirst b index d.site))
      ↔ f.IsParam var
        ∨ ∃ block defIndex, g.DefinedAt var block defIndex
          ∧ (g.Reachable b → g.Passes block defIndex b index) := by
  rw [exists_siteOf? unique (P := fun site =>
    g.domTree.isReachable b = true → (g.subject f config).ComesFirst b index site)]
  refine or_congr (and_iff_left fun _ => trivial) (exists_congr fun block =>
    exists_congr fun defIndex => and_congr_right fun _ => ?_)
  rw [FlowGraph.isReachable_domTree]
  apply imp_congr_right
  intro reach
  by_cases same : block = b
  · subst same
    rw [passes_self reach]
    exact iff_of_eq (if_pos rfl)
  · rw [passes_other reach same, ← FlowGraph.strictlyDominates_domTree]
    exact iff_of_eq (if_neg same)

/-- A definition that is there at the end of a block is one that all paths to that end pass. -/
theorem slot_available_iff {p : g.Block} {var : String}
    : (∃ d, (g.subject f config).siteOf? var = some d
        ∧ (g.domTree.isReachable p = true → (g.subject f config).isAvailableAtEnd d p = true))
      ↔ f.IsParam var
        ∨ ∃ block defIndex, g.DefinedAt var block defIndex
          ∧ (g.Reachable p → g.Passes block defIndex p (g.body p).length) := by
  refine (exists_siteOf? unique (P := fun site => g.domTree.isReachable p = true →
    (g.subject f config).isAvailableAtEnd ⟨var, site, none⟩ p = true)).trans ?_
  refine or_congr (and_iff_left fun _ => rfl) (exists_congr fun block =>
    exists_congr fun defIndex => and_congr_right fun defined => ?_)
  rw [FlowGraph.isReachable_domTree]
  apply imp_congr_right
  intro reach
  rw [passes_end reach defined.inside, ← FlowGraph.dominates_domTree]
  rfl

end Sites

-----------------------------------------------------------------------------------------
-- Slots
-----------------------------------------------------------------------------------------

/-- A block is listed once among the predecessors of another. -/
theorem preds_nodup (b : g.Block) : (g.preds b).Nodup :=
  (List.nodup_finRange g.size).filter _

/-- As many distinct labels as there are predecessors, all of them of predecessors, list each once.
-/
theorem Proper.perm_preds_iff (proper : g.Proper) {b : g.Block} {labels : List String}
    : labels.Perm ((g.preds b).map g.label)
      ↔ labels.length = (g.preds b).length ∧ labels.Nodup
        ∧ ∀ label ∈ labels, ∃ pred ∈ g.preds b, g.label pred = label := by
  constructor
  · intro perm
    refine ⟨by simpa using perm.length_eq, ?_, fun label member => ?_⟩
    · exact perm.nodup_iff.mpr
        ((preds_nodup b).map fun p q same => proper.label_injective p q same)
    · simpa using perm.mem_iff.mp member
  · intro counted
    obtain ⟨length, unique, known⟩ := counted
    have within : labels ⊆ (g.preds b).map g.label := fun label member => by
      simpa using known label member
    exact (List.subperm_of_subset unique within).perm_of_length_le (by simp [length])

/-- The slots of a phi fit if there is one for each predecessor, with an argument that paths to the
end of the predecessor define, of the right type.
-/
theorem phiFits_iff {allow : Bool} (ok : ofFunction? f allow = .ok g)
    (checks : config.checksDominance = true)
    (unique : ((g.allSites f.params).map SiteDef.var).Nodup) {typed : Bool} {b : g.Block}
    {op : Operation}
    : (g.subject f config).PhiFits typed b op
      ↔ b ≠ g.entry
        ∧ (op.labels.Perm ((g.preds b).map g.label) ∧ op.args.length = op.labels.length)
        ∧ (∀ arg p, (arg, g.label p) ∈ op.slots → arg ≠ config.undefName →
            f.IsParam arg
              ∨ ∃ d defIndex, g.DefinedAt arg d defIndex
                ∧ (g.Reachable p → g.Passes d defIndex p (g.body p).length))
        ∧ (typed = true → ∀ arg ∈ op.args, arg ≠ config.undefName →
            ∀ expected found, op.ty = some expected → (arg, some found) ∈ f.typedDefinitions →
              expected = found) := by
  have proper := proper_of_ok ok
  rw [proper.perm_preds_iff]
  constructor
  · intro fits
    obtain ⟨outside, args, labels, distinct, fit⟩ := fits
    refine ⟨outside, ⟨⟨labels, distinct, fun label member => ?_⟩, args⟩, fun arg p slot named => ?_,
      fun asked arg member named expected found phi defined => ?_⟩
    · rw [← op.map_snd_slots args, List.mem_map] at member
      obtain ⟨⟨arg, _⟩, slot, rfl⟩ := member
      obtain ⟨pred, edge, same, -⟩ := fit arg _ slot
      exact ⟨pred, edge, same⟩
    · obtain ⟨pred, -, same, fits⟩ := fit arg _ slot
      obtain rfl := proper.label_injective pred p same
      obtain ⟨d, site, -, available⟩ := fits named
      refine (slot_available_iff unique).mp ⟨d, site, fun reach => ?_⟩
      exact available ((checks_subject checks).mpr reach)
    · rw [← op.map_fst_slots args, List.mem_map] at member
      obtain ⟨⟨_, label⟩, slot, rfl⟩ := member
      obtain ⟨pred, -, -, fits⟩ := fit _ label slot
      obtain ⟨d, site, types, -⟩ := fits named
      exact types asked expected found phi ((mem_typedDefinitions unique ok site).mp defined)
  · intro valid
    obtain ⟨outside, ⟨⟨labels, distinct, known⟩, args⟩, defined, types⟩ := valid
    refine ⟨outside, args, labels, distinct, fun arg label slot => ?_⟩
    obtain ⟨pred, edge, rfl⟩ := known label (List.of_mem_zip slot).2
    refine ⟨pred, edge, rfl, fun named => ?_⟩
    obtain ⟨d, site, available⟩ := (slot_available_iff unique).mpr (defined arg pred slot named)
    refine ⟨d, site, fun asked expected found phi declared => ?_,
      fun checked => available ((checks_subject checks).mp checked)⟩
    exact types asked arg (List.of_mem_zip slot).1 named expected found phi
      ((mem_typedDefinitions unique ok site).mpr declared)

-----------------------------------------------------------------------------------------
-- Functions
-----------------------------------------------------------------------------------------

/-- With distinct definitions, what is asked of all blocks is the rest of single assignment form. -/
theorem acceptable_subject {allow : Bool} (ok : ofFunction? f allow = .ok g)
    (checks : config.checksDominance = true) {typed : Bool}
    : Acceptable typed (g.subject f config).findings
      ↔ g.SsaForm f config.undefName
        ∧ (typed = true → g.SlotTypesAgree f config.undefName) := by
  have vars : (g.allSites f.params).map SiteDef.var = f.definitions := map_var_allSites ok
  rw [Subject.acceptable_findings (s := g.subject f config) (proper_of_ok ok)]
  constructor
  · intro fits
    obtain ⟨unique, blocks⟩ := fits
    have phi {b : g.Block} {op : Operation} (member : op ∈ g.body b) (phi : op.isPhi = true) :=
      (phiFits_iff ok checks unique).mp ((blocks b).phis_fit op member phi)
    refine ⟨{
      definitions_nodup := vars ▸ unique
      phis_first := fun b => (blocks b).phis_first
      entry_free := fun op member => ?_
      phi_edges := fun b op member isPhi => (phi member isPhi).2.1
      uses_defined := fun b index op found other arg member => ?_
      slots_defined := fun b op member isPhi => (phi member isPhi).2.2.1
    }, fun asked b op member isPhi => (phi member isPhi).2.2.2 asked⟩
    · rw [Bool.eq_false_iff]
      exact fun isPhi => (phi member isPhi).1 rfl
    · obtain ⟨d, site, first⟩ := (blocks b).uses_fit index op found other arg member
      exact (use_fits_iff unique).mp
        ⟨d, site, fun reach => first ((checks_subject checks).mpr reach)⟩
  · intro valid
    obtain ⟨form, types⟩ := valid
    have unique : ((g.allSites f.params).map SiteDef.var).Nodup := vars ▸ form.definitions_nodup
    refine ⟨unique, fun b => {
      phis_first := form.phis_first b
      phis_fit := fun op member isPhi => ?_
      uses_fit := fun index op found other arg member => ?_
    }⟩
    · refine (phiFits_iff ok checks unique).mpr ⟨?_, form.phi_edges b op member isPhi,
        form.slots_defined b op member isPhi, fun asked => types asked b op member isPhi⟩
      intro same
      subst same
      exact absurd (form.entry_free op member) (by simp [isPhi])
    · obtain ⟨d, site, first⟩ :=
        (use_fits_iff unique).mpr (form.uses_defined b index op found other arg member)
      exact ⟨d, site, fun checked => first ((checks_subject checks).mp checked)⟩

end Cfg

/-- Without a limit, what is reported of an accepted function is what is found with its graph. -/
theorem VerifierConfig.diagnostics_verifyFunction {config : VerifierConfig} {f : Function} {g : Cfg}
    (ok : Cfg.ofFunction? f config.allowUnreachable = .ok g) (unlimited : config.maxDiagnostics = 0)
    : (config.verifyFunction f).diagnostics = (g.subject f config).findings := by
  rw [verifyFunction, unlimited, Report.diagnostics_extend_zero, findings, ok]
  rfl

/-- Verification finds no error in an accepted function exactly if the function is in valid static
single assignment form.
-/
theorem VerifierConfig.hasErrors_verifyFunction_iff (config : VerifierConfig) {f : Function}
    {g : Cfg}
    (ok : Cfg.ofFunction? f config.allowUnreachable = .ok g) (full : config.level = .full)
    (unlimited : config.maxDiagnostics = 0)
    : (config.verifyFunction f).hasErrors = false ↔ g.ValidSsa f config.undefName := by
  have checks : config.checksDominance = true := by simp [checksDominance, full]
  have clean : (config.verifyFunction f).hasErrors = false
      ↔ Acceptable true (g.subject f config).findings := by
    rw [Report.hasErrors, diagnostics_verifyFunction ok unlimited, List.any_eq_false]
    simp [Acceptable]
  rw [clean, Cfg.acceptable_subject ok checks]
  constructor
  · intro fits
    exact ⟨fits.1, fits.2 rfl⟩
  · intro valid
    exact ⟨valid.toSsaForm, fun _ => valid.slot_types⟩

/-- Counts up from zero until the count is as large as a limit, with a phi for the count. -/
def ssaCounter : Function where
  name := "count"
  params := [{ name := "limit", ty := .int }, { name := "one", ty := .int }]
  body := [
    .label "start",
    .operation { opcode := .const, dest := "zero", ty := some .int, value := some (.int 0) },
    .label "loop",
    .operation
      { opcode := .phi, dest := "i", ty := some .int, args := ["zero", "next"],
        labels := ["start", "loop"] },
    .operation { opcode := .add, dest := "next", ty := some .int, args := ["i", "one"] },
    .operation { opcode := .lt, dest := "more", ty := some .bool, args := ["next", "limit"] },
    .operation { opcode := .br, args := ["more"], labels := ["done", "loop"] },
    .label "done",
    .operation { opcode := .ret, args := ["next"] }]

/-- The counter is accepted, nothing is wrong with it, and so it is valid. -/
theorem hasErrors_verifyFunction_ssaCounter
    : ∃ g, Cfg.ofFunction? ssaCounter = .ok g ∧ g.ValidSsa ssaCounter defaultUndefName := by
  have accepted : (Cfg.ofFunction? ssaCounter).isOk = true := by cbv
  obtain ⟨g, ok⟩ := exists_eq_ok_of_isOk accepted
  refine ⟨g, ok, ?_⟩
  exact (VerifierConfig.hasErrors_verifyFunction_iff { maxDiagnostics := 0 } ok rfl rfl).mp
    (by cbv)

end ThreeAddress
