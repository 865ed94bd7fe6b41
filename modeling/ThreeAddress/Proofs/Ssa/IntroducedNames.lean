import ThreeAddress.Proofs.Ssa.Origins
import ThreeAddress.Proofs.Ssa.Scopes

/-! Which names a conversion introduces: as many versions of each variable that is renamed as there
are definitions of it. They are distinct, but a variable that is kept can be spelled like one.
-/

namespace ThreeAddress

-----------------------------------------------------------------------------------------
-- Versions among the names of definitions
-----------------------------------------------------------------------------------------

namespace RenamePlan

variable {plan : RenamePlan}

/-- Definitions of variables that are kept only add these to the names: they create no version. By
induction on the variables.
-/
theorem defineAll_perm (plan : RenamePlan) (versions : Versions) (vars : List String)
    : (plan.defineAll versions vars).1.Perm
        ((plan.defineAll versions (vars.filter plan.isRenamed)).1 ++ plan.kept vars) := by
  induction vars generalizing versions with
  | nil => exact .nil
  | cons first rest ih =>
      cases renamed : plan.isRenamed first with
      | true =>
          have dropped : plan.kept (first :: rest) = plan.kept rest := by simp [kept, renamed]
          rw [List.filter_cons_of_pos renamed, dropped, defineAll_cons, defineAll_cons,
            List.cons_append]
          exact (ih _).cons _
      | false =>
          have listed : plan.kept (first :: rest) = first :: plan.kept rest := by
            simp [kept, renamed]
          rw [List.filter_cons_of_neg (by simp [renamed]), listed, defineAll_cons,
            define_of_not_isRenamed renamed]
          exact ((ih versions).cons first).trans List.perm_middle.symm

/-- Where all variables are renamed, the names are the next versions of each variable, as many as it
has definitions. By induction on the variables.
-/
theorem mem_defineAll_of_isRenamed (versions : Versions) {vars : List String}
    (renamed : ∀ var ∈ vars, plan.isRenamed var = true) {name : String}
    : name ∈ (plan.defineAll versions vars).1
      ↔ ∃ var number, versions.count var ≤ number
          ∧ number < versions.count var + vars.count var ∧ name = versionName var number := by
  induction vars generalizing versions with
  | nil =>
      simp only [defineAll, List.not_mem_nil, List.count_nil, false_iff]
      rintro ⟨var, number, low, high, -⟩
      omega
  | cons first rest ih =>
      have top := renamed first List.mem_cons_self
      have later := ih (plan.define versions first).2.1 fun var member =>
        renamed var (List.mem_cons_of_mem _ member)
      rw [defineAll_cons, List.mem_cons, later, define_of_isRenamed top]
      simp only [Versions.count_fresh, List.count_cons, beq_iff_eq]
      constructor
      · rintro (rfl | ⟨var, number, low, high, rfl⟩)
        · exact ⟨first, versions.count first, Nat.le_refl _, by simp, rfl⟩
        · refine ⟨var, number, ?_, ?_, rfl⟩ <;> grind
      · rintro ⟨var, number, low, high, rfl⟩
        by_cases next : var = first ∧ number = versions.count first
        · exact .inl (by rw [next.1, next.2])
        · refine .inr ⟨var, number, ?_, ?_, rfl⟩ <;> grind

end RenamePlan

-----------------------------------------------------------------------------------------
-- What a conversion introduces
-----------------------------------------------------------------------------------------

/-- All variables of a function: those it defines and those its operations use. -/
def Function.variables (f : Function) : List String :=
  f.definitions ++ f.operations.flatMap Operation.args

/-- All variables that a renaming defines, once for each definition: those of parameters, phis and
operations.
-/
def RenamePlan.allDefined (plan : RenamePlan) (params : List Param) : List String :=
  params.map Param.name ++ plan.cfg.blocks.flatMap plan.definedIn

namespace Converts

variable {f f' : Function} {config : SsaConfig} {plan : RenamePlan} {initial : Versions}
  {state : Renaming plan}

/-- A conversion defines all variables in the order in which blocks are entered. -/
theorem allDefined_perm (conversion : Converts f config f' plan initial state)
    : (f.params.map Param.name ++ state.done.flatMap fun x => plan.definedIn x.1).Perm
        (plan.allDefined f.params) :=
  (conversion.flatMap_done_perm plan.definedIn).append_left _

/-- The renamed definitions of a conversion get versions. The names of all others are kept. -/
theorem exists_introduced (conversion : Converts f config f' plan initial state)
    : ∃ introduced, f'.definitions.Perm (introduced ++ plan.kept f.definitions)
        ∧ introduced.Nodup
        ∧ ∀ name, name ∈ introduced ↔ ∃ var number, plan.isRenamed var = true
            ∧ number < (plan.allDefined f.params).count var ∧ name = versionName var number := by
  have order := conversion.allDefined_perm
  have names := conversion.definitions_perm
  have kept := conversion.kept_perm
  generalize f.params.map Param.name ++ state.done.flatMap (fun x => plan.definedIn x.1) = vars
    at order names kept
  have renamed : ∀ var ∈ vars.filter plan.isRenamed, plan.isRenamed var = true :=
    fun var member => (List.mem_filter.mp member).2
  refine ⟨(plan.defineAll .empty (vars.filter plan.isRenamed)).1, ?_, ?_, fun name => ?_⟩
  · exact (names.trans (plan.defineAll_perm .empty vars)).trans (kept.append_left _)
  · apply RenamePlan.nodup_defineAll .empty (RenamePlan.keptApart_of_isRenamed renamed)
    rw [RenamePlan.kept_eq_nil renamed]
    exact List.nodup_nil
  · rw [RenamePlan.mem_defineAll_of_isRenamed _ renamed]
    have created (var : String) (isRenamed : plan.isRenamed var = true)
        : (vars.filter plan.isRenamed).count var = (plan.allDefined f.params).count var := by
      rw [List.count_filter isRenamed, order.count_eq]
    constructor
    · rintro ⟨var, number, -, high, rfl⟩
      have listed : var ∈ vars.filter plan.isRenamed :=
        List.count_pos_iff.mp (by simp only [Versions.count_empty] at high; omega)
      refine ⟨var, number, renamed var listed, ?_, rfl⟩
      simpa [created var (renamed var listed)] using high
    · rintro ⟨var, number, isRenamed, high, rfl⟩
      exact ⟨var, number, Nat.zero_le _, by simpa [created var isRenamed] using high, rfl⟩

/-- If locals are renamed too, then all variables are: a use that is not exposed has a definition in
front of it.
-/
theorem isRenamed_of_renameLocals (conversion : Converts f config f' plan initial state)
    (locals : config.renameLocals = true) {var : String} (listed : var ∈ f.variables)
    : plan.isRenamed var = true := by
  have renamed : (plan.cfg.globals f.params).isGlobal var = true
      ∨ (plan.cfg.globals f.params).isDefined var = true → plan.isRenamed var = true := by
    intro either
    rw [← conversion.plan_eq, RenamePlan.isRenamed, Cfg.renamePlan, Bool.or_eq_true,
      Bool.and_eq_true]
    exact either.imp_right (And.intro locals)
  apply renamed
  rw [Cfg.isDefined_globals conversion.graph]
  rcases List.mem_append.mp listed with defined | used
  · exact .inr defined
  · obtain ⟨op, member, used⟩ := List.mem_flatMap.mp used
    rw [Function.operations_eq_flatMap conversion.graph] at member
    obtain ⟨b, -, member⟩ := List.mem_flatMap.mp member
    obtain ⟨index, found⟩ := List.mem_iff_getElem?.mp member
    rcases exposed_or_defined [] found used with exposed | none | defined
    · exact .inl (Cfg.isGlobal_iff_exposed.mpr ⟨b, exposed⟩)
    · simp at none
    · obtain ⟨earlier, front, result⟩ := List.mem_filterMap.mp defined
      have inBody := (List.take_sublist _ _).subset front
      refine .inr (List.mem_append_right _ (List.mem_filterMap.mpr ⟨earlier, ?_, result⟩))
      exact Function.mem_operations_of_mem_body conversion.graph inBody

end Converts

/-- What a conversion introduces are versions of the variables that are renamed, as many of each as
there are definitions of it, phis included. They are distinct and none is the marker, so a name can
be captured in one way only: a variable that is kept is spelled like one of these versions. That
needs a variable that is kept, and none is if locals are renamed.
-/
theorem Function.toSsa_introduces {f f' : Function} {config : SsaConfig} {summary : SsaSummary}
    {g : Cfg} (graph : Cfg.ofFunction? f = .ok g) (ok : f.toSsa config = .ok (f', summary))
    (marker : config.undefName = defaultUndefName)
    : let plan := g.renamePlan f.params config
      ∃ introduced, f'.definitions.Perm (introduced ++ plan.kept f.definitions)
        ∧ introduced.Nodup
        ∧ config.undefName ∉ introduced
        ∧ (∀ name, name ∈ introduced ↔ ∃ var number, plan.isRenamed var = true
            ∧ number < (plan.allDefined f.params).count var ∧ name = versionName var number)
        ∧ (config.renameLocals = true → ∀ var ∈ f.variables, plan.isRenamed var = true) := by
  obtain ⟨plan, initial, state, conversion⟩ := toSsa_eq_ok ok
  obtain rfl : g = plan.cfg := Except.ok.inj (graph.symm.trans conversion.graph)
  rw [conversion.plan_eq]
  obtain ⟨introduced, whole, distinct, versions⟩ := conversion.exists_introduced
  refine ⟨introduced, whole, distinct, fun captured => ?_, versions, fun locals var listed => ?_⟩
  · obtain ⟨var, number, -, -, named⟩ := (versions _).mp captured
    exact ne_versionName_of_dotless (by rw [marker]; decide) var number named
  · exact conversion.isRenamed_of_renameLocals locals listed

/-- A variable that is global, and another one that is not and is spelled like its first version. -/
def spelledLikeVersion : Function where
  name := "f"
  body := [
    .label "entry",
    .operation { opcode := .const, dest := "x", ty := some .int, value := some (.int 5) },
    .operation { opcode := .const, dest := "x.0", ty := some .int, value := some (.int 1) },
    .operation { opcode := .print, args := ["x.0"] },
    .label "next",
    .operation { opcode := .print, args := ["x"] }]

/-- The version of the one is the other, so the last operation prints the wrong variable. -/
theorem toSsa_capturesKept
    : ∃ g f' summary introduced, Cfg.ofFunction? spelledLikeVersion = .ok g
        ∧ spelledLikeVersion.toSsa = .ok (f', summary)
        ∧ f'.definitions.Perm (introduced
          ++ (g.renamePlan spelledLikeVersion.params {}).kept spelledLikeVersion.definitions)
        ∧ "x.0" ∈ introduced
        ∧ "x.0" ∈ spelledLikeVersion.variables
        ∧ (g.renamePlan spelledLikeVersion.params {}).isRenamed "x.0" = false := by
  have accepted : (Cfg.ofFunction? spelledLikeVersion).toOption.any (fun g =>
      !(g.renamePlan spelledLikeVersion.params {}).isRenamed "x.0"
        && (g.renamePlan spelledLikeVersion.params {}).kept spelledLikeVersion.definitions
          == ["x.0"]) = true := by cbv
  have converted : (spelledLikeVersion.toSsa).toOption.any
      (fun result => result.1.definitions == ["x.0", "x.0"]) = true := by cbv
  obtain ⟨g, graph, unrenamed⟩ := exists_eq_ok_of_any accepted
  obtain ⟨⟨f', summary⟩, ok, names⟩ := exists_eq_ok_of_any converted
  simp only [Bool.and_eq_true, Bool.not_eq_true', beq_iff_eq] at unrenamed names
  refine ⟨g, f', summary, ["x.0"], graph, ok, ?_, by simp, by decide, unrenamed.1⟩
  rw [names, unrenamed.2]
  rfl

/-- When locals are renamed too the names are distinct. -/
theorem toSsa_introduces_spelledLikeVersion
    : ∃ f' summary, spelledLikeVersion.toSsa { renameLocals := true } = .ok (f', summary)
        ∧ f'.definitions.Nodup := by
  have accepted : (Cfg.ofFunction? spelledLikeVersion).toOption.any (fun g =>
      (g.renamePlan spelledLikeVersion.params { renameLocals := true }).kept
        spelledLikeVersion.definitions == []) = true := by cbv
  have converted : (spelledLikeVersion.toSsa { renameLocals := true }).isOk = true := by cbv
  obtain ⟨g, graph, kept⟩ := exists_eq_ok_of_any accepted
  obtain ⟨⟨f', summary⟩, ok⟩ := exists_eq_ok_of_isOk converted
  obtain ⟨introduced, whole, distinct, -⟩ := Function.toSsa_introduces graph ok rfl
  rw [beq_iff_eq.mp kept, List.append_nil] at whole
  exact ⟨f', summary, ok, whole.nodup_iff.mpr distinct⟩

end ThreeAddress
