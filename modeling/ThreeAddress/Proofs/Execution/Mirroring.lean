import ThreeAddress.Proofs.Execution.Machine
import ThreeAddress.Proofs.Ssa.Renaming

/-! Environments of a function and of the converted one: a variable has the value of the name that
stands for it. Definitions on both sides keep this, whether they are parameters, phis or operations.
-/

namespace ThreeAddress

variable {V : Type} {plan : RenamePlan} {versions : Versions} {undef : V} {live : String → Prop}
  {env env' : Env V}

/-- The live variables of one environment have the values of the names that stand for them in
another, where the marker is undefined. All of them are renamed or among some variables.
-/
structure Mirrors (plan : RenamePlan) (vars : List String) (undef : V) (versions : Versions)
    (live : String → Prop) (env env' : Env V)
    : Prop where
  marker : env' plan.config.undefName = undef
  known : ∀ var, live var → plan.isRenamed var = true ∨ var ∈ vars
  value : ∀ var, live var → env' (plan.nameOf versions var) = env var

namespace Mirrors

variable {vars : List String}

/-- Fewer variables are mirrored if more are, also for other versions with the same names. -/
theorem mono (mirrors : Mirrors plan vars undef versions live env env') {fewer : String → Prop}
    {versions' : Versions} (less : ∀ var, fewer var → live var)
    (same : ∀ var, fewer var → plan.nameOf versions' var = plan.nameOf versions var)
    : Mirrors plan vars undef versions' fewer env env' where
  marker := mirrors.marker
  known var member := mirrors.known var (less var member)
  value var member := by
    rw [same var member]
    exact mirrors.value var (less var member)

/-- Assigning one value to a variable and to its new name makes the variable live. -/
theorem define (mirrors : Mirrors plan vars undef versions live env env')
    (coherent : versions.Coherent) (apart : plan.KeptApart vars) {var : String}
    (listed : plan.isRenamed var = true ∨ var ∈ vars)
    (free : (plan.define versions var).1 ≠ plan.config.undefName) (value : V)
    : Mirrors plan vars undef (plan.define versions var).2.1 (fun other => other = var ∨ live other)
        (env.assign (some var) value)
        (env'.assign (some (plan.define versions var).1) value) where
  marker := by
    rw [Env.assign, if_neg (by simpa using free)]
    exact mirrors.marker
  known other member := by
    rcases member with same | old
    · exact same ▸ listed
    · exact mirrors.known other old
  value other member := by
    rw [RenamePlan.nameOf_define]
    by_cases same : var = other
    · subst same
      simp [Env.assign]
    · have old := member.resolve_left (Ne.symm same)
      have different : (plan.define versions var).1 ≠ plan.nameOf versions other := by
        apply RenamePlan.define_ne_nameOf coherent same free
        intro kept one unrenamed
        refine apart kept ?_ unrenamed
        rcases one with rfl | rfl
        · exact listed.resolve_left (by simp [unrenamed])
        · exact (mirrors.known kept old).resolve_left (by simp [unrenamed])
      rw [if_neg same, Env.assign, if_neg (by simpa using different), Env.assign,
        if_neg (by simpa using same)]
      exact mirrors.value other old

/-- Phis that select the values of their variables make these live and leave all values as they are.
By induction on the phis.
-/
theorem phis {phiVars : List String} (mirrors : Mirrors plan vars undef versions live env env')
    (coherent : versions.Coherent) (apart : plan.KeptApart vars)
    (renamed : ∀ var ∈ phiVars, plan.isRenamed var = true)
    (free : plan.config.undefName ∉ (RenamePlan.renamePhis versions phiVars).1)
    : Mirrors plan vars undef (RenamePlan.renamePhis versions phiVars).2
        (fun var => var ∈ phiVars ∨ live var) env
        (env'.assignAll ((RenamePlan.renamePhis versions phiVars).1.map some)
          (phiVars.map env)) := by
  induction phiVars generalizing versions live env' with
  | nil => exact mirrors.mono (by simp) (fun _ _ => rfl)
  | cons var rest ih =>
      have first := renamed var List.mem_cons_self
      simp only [RenamePlan.renamePhis, List.mem_cons, not_or] at free
      have fresh : (plan.define versions var).1 ≠ plan.config.undefName := by
        rw [RenamePlan.define_of_isRenamed first]
        exact Ne.symm free.1
      have next := mirrors.define coherent apart (.inl first) fresh (env var)
      have unchanged : env.assign (some var) (env var) = env := by
        funext other
        by_cases same : var = other
        · subst same
          simp [Env.assign]
        · simp [Env.assign, same]
      rw [unchanged, RenamePlan.define_of_isRenamed first] at next
      have later := ih next (coherent.fresh var)
        (fun other member => renamed other (List.mem_cons_of_mem _ member)) free.2
      refine later.mono (fun other member => ?_) (fun _ _ => rfl)
      rcases member with listed | old
      · rcases List.mem_cons.mp listed with same | listed
        · exact .inr (.inl same)
        · exact .inl listed
      · exact .inr (.inr old)

/-- Giving arguments to parameters makes the parameters live, by induction on them. -/
theorem params {params : List Param} (mirrors : Mirrors plan vars undef versions live env env')
    (coherent : versions.Coherent) (apart : plan.KeptApart vars)
    (listed : ∀ p ∈ params, p.name ∈ vars)
    (free : plan.config.undefName ∉ (plan.renameParams versions params).1.map Param.name)
    (args : List V)
    : Mirrors plan vars undef (plan.renameParams versions params).2.1
        (fun var => live var ∨ ∃ p ∈ params, p.name = var)
        (Env.bindParams undef env params args)
        (Env.bindParams undef env' (plan.renameParams versions params).1 args) := by
  induction params generalizing versions live env env' args with
  | nil => exact mirrors.mono (by simp) (fun _ _ => rfl)
  | cons param rest ih =>
      simp only [RenamePlan.renameParams, List.map_cons, List.mem_cons, not_or] at free
      have next := mirrors.define coherent apart (.inr (listed param List.mem_cons_self))
        (Ne.symm free.1) (args.headD undef)
      have later := ih next ((plan.extends_define versions param.name).coherent coherent)
        (fun p member => listed p (List.mem_cons_of_mem _ member)) free.2 args.tail
      refine later.mono (fun other member => ?_) (fun _ _ => rfl)
      rcases member with old | ⟨p, member, name⟩
      · exact .inl (.inr old)
      · rcases List.mem_cons.mp member with same | member
        · exact .inl (.inl (same ▸ name.symm))
        · exact .inr ⟨p, member, name⟩

end Mirrors

end ThreeAddress
