import ThreeAddress.Proofs.ControlFlow.WellFormed
import ThreeAddress.Proofs.Graph.DominatorTree
import ThreeAddress.Proofs.Verification.Reports
import ThreeAddress.Proofs.Verification.Severities

/-! What a limit on findings does to the verdict on a program. The limit has no part in what is
found, so a limited verification reports the first of all findings. Its verdict can differ from that
of a verification without a limit only if warnings, which are remarks on blocks that are not
reachable, use up the limit in front of the first error.
-/

namespace ThreeAddress

-----------------------------------------------------------------------------------------
-- The limit has no part in what is found
-----------------------------------------------------------------------------------------

namespace Subject

variable {g : Cfg} {tree : DomTree g.toFlowGraph} {sites : List (SiteDef g)}
  {config config' : VerifierConfig}

/-- Whether definitions are repeated does not depend on the settings. -/
theorem redefinitions_congr (earlier rest : List (SiteDef g))
    : (mk g tree sites config').redefinitions earlier rest
      = (mk g tree sites config).redefinitions earlier rest := by
  have again (first d : SiteDef g)
      : (mk g tree sites config').redefinition first d
        = (mk g tree sites config).redefinition first d := by
    obtain ⟨var, _ | _, ty⟩ := d <;> rfl
  induction rest generalizing earlier with
  | nil => rfl
  | cons d rest ih => simp only [redefinitions, again, ih]

variable (checks : config'.checksDominance = config.checksDominance)
  (marker : config'.undefName = config.undefName) (b : g.Block)

include checks marker in
/-- What is wrong with a slot depends on whether dominance is checked and on the marker only. -/
theorem slotFindings_congr (index : Nat) (op : Operation) (arg label : String)
    : (mk g tree sites config').slotFindings b index op arg label
      = (mk g tree sites config).slotFindings b index op arg label := by
  have edge (d : SiteDef g) (pred : g.Block)
      : (mk g tree sites config').unavailable b index op arg label d pred
        = (mk g tree sites config).unavailable b index op arg label d pred := by
    simp only [unavailable, checks]
    obtain ⟨var, _ | _, ty⟩ := d <;> rfl
  have named : (mk g tree sites config').predNamed? b label
      = (mk g tree sites config).predNamed? b label := rfl
  have site : (mk g tree sites config').siteOf? arg = (mk g tree sites config).siteOf? arg := rfl
  have types (d : SiteDef g)
      : (mk g tree sites config').typeMismatch b index op arg label d
        = (mk g tree sites config).typeMismatch b index op arg label d := rfl
  simp only [slotFindings, marker, edge, named, site, types]
  cases (mk g tree sites config).predNamed? b label with
  | none => rfl
  | some pred => cases (mk g tree sites config).siteOf? arg <;> rfl

include checks marker in
/-- What is wrong with the phis of a block depends on whether dominance is checked and on the marker
only.
-/
theorem phisFindings_congr (afterOther : Bool) (ops : List (Operation × Nat))
    : (mk g tree sites config').phisFindings b afterOther ops
      = (mk g tree sites config).phisFindings b afterOther ops := by
  have slots (index : Nat) (op : Operation) (seen : List String) (slots : List (String × String))
      : (mk g tree sites config').slotsFindings b index op seen slots
        = (mk g tree sites config).slotsFindings b index op seen slots := by
    induction slots generalizing seen with
    | nil => rfl
    | cons slot rest ih => simp only [slotsFindings, ih, slotFindings_congr checks marker b]
  have phi (index : Nat) (op : Operation) (afterOther : Bool)
      : (mk g tree sites config').phiFindings b index op afterOther
        = (mk g tree sites config).phiFindings b index op afterOther := by
    simp only [phiFindings, slots]
    rfl
  induction ops generalizing afterOther with
  | nil => rfl
  | cons x rest ih => simp only [phisFindings, phi, ih]

include checks in
/-- What is wrong with a use depends on whether dominance is checked only. -/
theorem useFindings_congr (index : Nat) (op : Operation)
    : (mk g tree sites config').useFindings b index op
      = (mk g tree sites config).useFindings b index op := by
  funext arg
  have order (d : SiteDef g)
      : (mk g tree sites config').orderFindings b index op arg d
        = (mk g tree sites config).orderFindings b index op arg d := by
    obtain ⟨var, _ | _, ty⟩ := d <;> rfl
  have site : (mk g tree sites config').siteOf? arg = (mk g tree sites config).siteOf? arg := rfl
  simp only [useFindings, checks, order, site]
  cases (mk g tree sites config).siteOf? arg <;> rfl

include checks marker in
/-- What is found depends on whether dominance is checked and on the marker only. -/
theorem findings_congr
    : (mk g tree sites config').findings = (mk g tree sites config).findings := by
  have uses (b : g.Block)
      : (mk g tree sites config').usesFindings b = (mk g tree sites config).usesFindings b := by
    simp only [usesFindings, useFindings_congr checks b]
  have block (b : g.Block)
      : (mk g tree sites config').blockFindings b = (mk g tree sites config).blockFindings b := by
    simp only [blockFindings, phisFindings_congr checks marker b, uses]
  have repeats : (mk g tree sites config').redefinitions [] sites
      = (mk g tree sites config).redefinitions [] sites := redefinitions_congr [] sites
  exact congrArg₂ (· ++ ·) repeats (congrArg g.blocks.flatMap (funext block))

end Subject

namespace VerifierConfig

/-- The same settings with another limit. -/
def withLimit (config : VerifierConfig) (limit : Nat) : VerifierConfig :=
  { config with maxDiagnostics := limit }

/-- What is found does not depend on the limit. -/
theorem findings_withLimit (config : VerifierConfig) (limit : Nat)
    : (config.withLimit limit).findings = config.findings := by
  funext f
  have graph : Cfg.ofFunction? f (config.withLimit limit).allowUnreachable
      = Cfg.ofFunction? f config.allowUnreachable := rfl
  rw [findings, findings, graph]
  cases Cfg.ofFunction? f config.allowUnreachable with
  | error error => rfl
  | ok g => exact Subject.findings_congr rfl rfl

-----------------------------------------------------------------------------------------
-- What a limited verification reports
-----------------------------------------------------------------------------------------

/-- As much is reported of a function as the limit allows. -/
theorem diagnostics_verifyFunction_eq_capped (config : VerifierConfig) (f : Function)
    : (config.verifyFunction f).diagnostics = capped config.maxDiagnostics (config.findings f) := by
  have start : ({} : Report).diagnostics = capped config.maxDiagnostics [] := by
    simp [capped]
  exact Report.diagnostics_extend start (config.findings f)

/-- As much is reported of a program as the limit allows, although the reports on its functions are
limited before they are merged.
-/
theorem diagnostics_verifyProgram_eq_capped (config : VerifierConfig) (program : Program)
    : (config.verifyProgram program).diagnostics
      = capped config.maxDiagnostics (program.functions.flatMap config.findings) := by
  have start : ({} : Report).diagnostics = capped config.maxDiagnostics [] := by
    simp [capped]
  rw [verifyProgram, Report.diagnostics_merge start, List.nil_append, List.flatMap_map]
  simp only [diagnostics_verifyFunction_eq_capped]
  exact capped_flatMap_capped program.functions config.findings

/-- A limited report on a program is the beginning of the reports on its functions without a limit,
in the order of the functions, and without a limit it is all of them. So what the limit drops has no
influence on what else is reported.
-/
theorem diagnostics_verifyProgram_prefix (config : VerifierConfig) (program : Program) (limit : Nat)
    : let full := program.functions.flatMap fun f =>
        ((config.withLimit 0).verifyFunction f).diagnostics
      ((config.withLimit 0).verifyProgram program).diagnostics = full
      ∧ (0 < limit → ((config.withLimit limit).verifyProgram program).diagnostics = full.take limit)
    := by
  have each (f : Function)
      : ((config.withLimit 0).verifyFunction f).diagnostics = config.findings f := by
    rw [diagnostics_verifyFunction_eq_capped, findings_withLimit]
    rfl
  have reported (limit : Nat)
      : ((config.withLimit limit).verifyProgram program).diagnostics
        = capped limit (program.functions.flatMap config.findings) := by
    rw [diagnostics_verifyProgram_eq_capped, findings_withLimit]
    rfl
  simp only [each, reported]
  exact ⟨rfl, fun limited => if_neg (Nat.ne_of_gt limited)⟩

end VerifierConfig

/-- A program of three functions: one that defines a variable twice, one that is valid, and one that
uses two variables without a definition.
-/
def repeatedAndUndefined : Program where
  functions := [
    { name := "f"
      params := [{ name := "x", ty := .int }]
      body := [.label "entry", .operation { opcode := .id, dest := "x", args := ["x"] }] },
    { name := "g"
      body := [.label "entry", .operation { opcode := .ret }] },
    { name := "h"
      body := [.label "entry", .operation { opcode := .print, args := ["y", "z"] }] }]

/-- A limit of two cuts the report on the last function. -/
theorem diagnostics_verifyProgram_prefix_repeatedAndUndefined
    : 0 < 2
      ∧ (VerifierConfig.verifyProgram (VerifierConfig.withLimit {} 2)
            repeatedAndUndefined).diagnostics
        = (repeatedAndUndefined.functions.flatMap fun f =>
            (VerifierConfig.verifyFunction (VerifierConfig.withLimit {} 0) f).diagnostics).take 2
      ∧ (repeatedAndUndefined.functions.map fun f =>
            (VerifierConfig.verifyFunction (VerifierConfig.withLimit {} 0) f).diagnostics.map
              Diagnostic.code)
        = [[.multipleDefinition], [], [.undefinedVariable, .undefinedVariable]] :=
  ⟨by decide, (VerifierConfig.diagnostics_verifyProgram_prefix {} repeatedAndUndefined 2).2
    (by decide), by cbv⟩

namespace VerifierConfig

/-- What is found is an error or the remark on an unreachable block where these are allowed. -/
theorem isError_or_unreachable {config : VerifierConfig} {f : Function} {d : Diagnostic}
    (found : d ∈ config.findings f)
    : d.isError = true ∨ d.code = .unreachableBlock ∧ config.allowUnreachable = true := by
  rw [findings] at found
  cases graph : Cfg.ofFunction? f config.allowUnreachable with
  | error error =>
      rw [graph, List.mem_singleton] at found
      exact .inl (found ▸ rfl)
  | ok g =>
      rw [graph] at found
      refine (Subject.isError_or_unreachable _ found).imp_right fun remark => ⟨remark.1, ?_⟩
      obtain ⟨-, -, -, -, allowed⟩ := Cfg.ofFunction?_eq_ok.mp graph
      refine allowed.resolve_right fun all => ?_
      obtain ⟨b, missed⟩ := remark.2
      have reached := (FlowGraph.isReachable_domTree b).mpr (Cfg.unreachableBlock?_eq_none.mp all b)
      exact absurd (reached.symm.trans missed) (by simp)

-----------------------------------------------------------------------------------------
-- The verdict
-----------------------------------------------------------------------------------------

/-- A limited verification approves of a program exactly if one without a limit does or if the
warnings in front of the first error use up the limit. Warnings are remarks on unreachable blocks,
so where these are not allowed the verdict does not depend on the limit.
-/
theorem isOk_verifyProgram_withLimit (config : VerifierConfig) (program : Program) (limit : Nat)
    : (((config.withLimit limit).verifyProgram program).isOk = true
        ↔ ((config.withLimit 0).verifyProgram program).isOk = true
          ∨ 0 < limit ∧ limit ≤ ((config.withLimit 0).verifyProgram program).leadingWarnings)
      ∧ (∀ d ∈ ((config.withLimit 0).verifyProgram program).diagnostics,
          d.isError = true ∨ d.code = .unreachableBlock ∧ config.allowUnreachable = true)
      ∧ (config.allowUnreachable = false →
          ((config.withLimit limit).verifyProgram program).isOk
            = ((config.withLimit 0).verifyProgram program).isOk) := by
  have reported (limit : Nat)
      : ((config.withLimit limit).verifyProgram program).diagnostics
        = capped limit (program.functions.flatMap config.findings) :=
    config.findings_withLimit limit ▸
      (config.withLimit limit).diagnostics_verifyProgram_eq_capped program
  have verdict : ((config.withLimit limit).verifyProgram program).isOk = true
      ↔ ((config.withLimit 0).verifyProgram program).isOk = true
        ∨ 0 < limit ∧ limit ≤ ((config.withLimit 0).verifyProgram program).leadingWarnings := by
    simp only [Report.isOk_eq_all, Report.leadingWarnings, reported, capped_zero]
    exact all_capped
  have kinds : ∀ d ∈ ((config.withLimit 0).verifyProgram program).diagnostics,
      d.isError = true ∨ d.code = .unreachableBlock ∧ config.allowUnreachable = true := by
    intro d found
    rw [reported, capped_zero, List.mem_flatMap] at found
    obtain ⟨f, -, found⟩ := found
    exact isError_or_unreachable found
  refine ⟨verdict, kinds, fun strict => ?_⟩
  have none : ((config.withLimit 0).verifyProgram program).leadingWarnings = 0 := by
    have errors (d : Diagnostic)
        (found : d ∈ ((config.withLimit 0).verifyProgram program).diagnostics)
        : d.isError = true :=
      (kinds d found).resolve_right fun remark => by simp [strict] at remark
    rw [Report.leadingWarnings]
    cases found : ((config.withLimit 0).verifyProgram program).diagnostics with
    | nil => rfl
    | cons first rest => simp [errors first (found ▸ List.mem_cons_self)]
  rw [Bool.eq_iff_iff, verdict, none]
  exact or_iff_left fun spent => absurd spent.1 (Nat.not_lt_of_le spent.2)

end VerifierConfig

/-- A program with a block that is not reachable and uses a variable without a definition. -/
def undefinedOnIsland : Program where
  functions := [
    { name := "f"
      body := [
        .label "entry",
        .operation { opcode := .ret },
        .label "island",
        .operation { opcode := .print, args := ["x"] }] }]

/-- The remark on the block uses up a limit of one, so the error behind it is not reported and the
verdict is good.
-/
theorem isOk_verifyProgram_undefinedOnIsland
    : (VerifierConfig.verifyProgram { maxDiagnostics := 1, allowUnreachable := true }
          undefinedOnIsland).isOk = true
      ∧ (VerifierConfig.verifyProgram { maxDiagnostics := 0, allowUnreachable := true }
          undefinedOnIsland).isOk = false := by
  constructor <;> cbv

end ThreeAddress
