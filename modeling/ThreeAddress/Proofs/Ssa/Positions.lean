import ThreeAddress.Proofs.Ssa.Converted

/-! The versions at each position of a renamed block, and the names that operations get from them.
-/

namespace ThreeAddress

namespace RenamePlan

variable {plan : RenamePlan}

-----------------------------------------------------------------------------------------
-- The newest version of a variable
-----------------------------------------------------------------------------------------

/-- A definition makes a new version the newest one of its variable, if that is renamed, and leaves
those of all other variables.
-/
theorem current?_define {versions : Versions} {var : String} (renamed : plan.isRenamed var = true)
    (other : String)
    : (plan.define versions var).2.1.current? other
      = if var = other then some (plan.define versions var).1 else versions.current? other := by
  by_cases same : var = other
  · subst same
    rw [if_pos rfl, define_of_isRenamed renamed, Versions.current?, Versions.stack_fresh,
      if_pos rfl]
    rfl
  · rw [if_neg same, Versions.current?, stack_define_of_ne versions same]
    rfl

/-- After definitions one after another the newest version of a variable is the name that the last
definition of it got, by induction on the variables.
-/
theorem exists_current?_defineAll (versions : Versions) {vars : List String} {var : String}
    (renamed : plan.isRenamed var = true) (listed : var ∈ vars)
    : ∃ (index : Nat) (name : String), vars[index]? = some var
        ∧ (plan.defineAll versions vars).1[index]? = some name
        ∧ (plan.defineAll versions vars).2.1.current? var = some name := by
  induction vars generalizing versions with
  | nil => simp at listed
  | cons first rest ih =>
      simp only [defineAll_cons]
      by_cases again : var ∈ rest
      · obtain ⟨index, name, here, named, newest⟩ := ih (plan.define versions first).2.1 again
        exact ⟨index + 1, name, here, named, newest⟩
      · obtain rfl := (List.mem_cons.mp listed).resolve_right again
        refine ⟨0, (plan.define versions var).1, rfl, rfl, ?_⟩
        rw [Versions.current?, stack_defineAll_of_not_mem _ _ again]
        exact (current?_define renamed var).trans (if_pos rfl)

/-- A name on the stack of the variable that it stands for is the newest version of it. -/
theorem current?_eq_nameOf {versions : Versions} {var : String}
    (renamed : plan.isRenamed var = true) (visible : plan.nameOf versions var ∈ versions.stack var)
    : versions.current? var = some (plan.nameOf versions var) := by
  rw [nameOf, if_pos renamed] at visible ⊢
  cases current : versions.current? var with
  | none =>
      rw [List.head?_eq_none_iff.mp current] at visible
      exact absurd visible List.not_mem_nil
  | some name => rfl

/-- An operation of a renamed body has the names that stand for its arguments after the definitions
in front of it, and its result is defined after these too. By induction on the operations.
-/
theorem renameBody_getElem? {versions : Versions} {ops ops' : List Operation} {final : Versions}
    {pushed : List String} (ok : plan.renameBody versions ops = .ok (ops', final, pushed))
    {index : Nat} {op : Operation} (found : ops[index]? = some op)
    : let inside := (plan.defineAll versions ((ops.take index).filterMap Operation.dest)).2.1
      ∃ op', ops'[index]? = some op' ∧ op'.args = op.args.map (plan.nameOf inside)
        ∧ op'.dest = (plan.defineDest inside op.dest).1
        ∧ ∀ arg ∈ op.args, plan.isRenamed arg = true →
            plan.nameOf inside arg ∈ inside.stack arg := by
  induction ops generalizing versions ops' pushed index with
  | nil => simp at found
  | cons first rest ih =>
      obtain ⟨dest, inside, new, others, later, defined, body, rfl, -, visible⟩ :=
        renameBody_cons_eq_ok ok
      cases index with
      | zero =>
          obtain rfl := Option.some.inj found
          exact ⟨_, rfl, rfl, (congrArg Prod.fst defined).symm, visible⟩
      | succ index =>
          have front : (plan.defineAll versions
                (((first :: rest).take (index + 1)).filterMap Operation.dest)).2.1
              = (plan.defineAll inside ((rest.take index).filterMap Operation.dest)).2.1 := by
            cases result : first.dest with
            | none =>
                obtain ⟨-, rfl, -⟩ : none = dest ∧ versions = inside ∧ [] = new := by
                  simpa [result, defineDest] using defined
                rw [List.take_succ_cons, List.filterMap_cons_none result]
            | some var =>
                rw [result, defineDest_some, Prod.mk.injEq, Prod.mk.injEq] at defined
                obtain ⟨-, rfl, -⟩ := defined
                rw [List.take_succ_cons, List.filterMap_cons_some result, defineAll_cons]
          rw [front]
          exact ih body found

end RenamePlan

-----------------------------------------------------------------------------------------
-- Versions at a position
-----------------------------------------------------------------------------------------

namespace Renaming

variable {plan : RenamePlan} {state : Renaming plan} {initial : Versions} {b : plan.cfg.Block}

/-- The versions behind the phis of a block and its first operations. -/
def versionsAt (state : Renaming plan) (b : plan.cfg.Block) (index : Nat) : Versions :=
  (plan.defineAll (state.blockAt b).entry
    (plan.placement.varsAt b ++ ((plan.cfg.body b).take index).filterMap Operation.dest)).2.1

/-- An operation adds the version of its result. -/
theorem versionsAt_succ {index : Nat} {op : Operation}
    (found : (plan.cfg.body b)[index]? = some op)
    : state.versionsAt b (index + 1)
      = (plan.defineDest (state.versionsAt b index) op.dest).2.1 := by
  rw [versionsAt, List.take_add_one, found, Option.toList_some, List.filterMap_append,
    ← List.append_assoc, RenamePlan.defineAll_append]
  cases result : op.dest with
  | none =>
      rw [List.filterMap_cons_none result]
      rfl
  | some var =>
      rw [List.filterMap_cons_some result]
      rfl

/-- An operation leaves the versions of the variables that it does not define. -/
theorem versionsAt_succ_of_ne {index : Nat} {op : Operation}
    (found : (plan.cfg.body b)[index]? = some op) {var : String} (other : op.dest ≠ some var)
    : (state.versionsAt b (index + 1)).stack var = (state.versionsAt b index).stack var := by
  rw [versionsAt_succ found]
  cases result : op.dest with
  | none => rfl
  | some dest =>
      apply RenamePlan.stack_define_of_ne
      rintro rfl
      exact other result

/-- All other variables start with the version from the top of the block. -/
theorem versionsAt_of_not_mem {var : String} (absent : var ∉ plan.placement.varsAt b)
    : (state.versionsAt b 0).stack var = (state.blockAt b).entry.stack var := by
  apply RenamePlan.stack_defineAll_of_not_mem
  simpa using absent

namespace Complete

variable (complete : state.Complete initial) (placed : plan.PhisRenamed)

include complete placed

/-- Behind its phis a block has the versions of these, and else those from its top. -/
theorem versionsAt_eq (b : plan.cfg.Block) (index : Nat)
    : ∃ inside,
        RenamePlan.renamePhis (state.blockAt b).entry (plan.placement.varsAt b)
            = ((state.blockAt b).phiDests, inside)
          ∧ (∃ pushed, plan.renameBody inside (plan.cfg.body b)
              = .ok ((state.blockAt b).body, (state.blockAt b).exit, pushed))
          ∧ state.versionsAt b index = (plan.defineAll inside
              (((plan.cfg.body b).take index).filterMap Operation.dest)).2.1 := by
  obtain ⟨pushed, renamed⟩ := complete.renamed b
  obtain ⟨inside, later, phis, body, -⟩ := RenamePlan.renameBlock_eq_ok renamed
  refine ⟨inside, phis, ⟨later, body⟩, ?_⟩
  rw [versionsAt, RenamePlan.defineAll_append, RenamePlan.renamePhis_eq _ (placed b), phis]

/-- Behind all of its operations are the versions at the end of the block. -/
theorem versionsAt_length (b : plan.cfg.Block)
    : state.versionsAt b (plan.cfg.body b).length = (state.blockAt b).exit := by
  obtain ⟨pushed, renamed⟩ := complete.renamed b
  have defined := RenamePlan.renameBlock_defines placed renamed
  rw [versionsAt, List.take_length]
  exact congrArg (fun x => x.2.1) defined

omit placed in
theorem coherent_versionsAt (b : plan.cfg.Block) (index : Nat)
    : (state.versionsAt b index).Coherent :=
  (plan.extends_defineAll _ _).coherent (complete.coherent b)

/-- A variable that has a phi in a block starts with the version of the phi. -/
theorem versionsAt_phi {var : String} (listed : var ∈ plan.placement.varsAt b)
    : ∃ (index : Nat) (name : String), (plan.placement.varsAt b)[index]? = some var
        ∧ (state.blockAt b).phiDests[index]? = some name
        ∧ (state.versionsAt b 0).current? var = some name := by
  have newest := RenamePlan.exists_current?_defineAll (state.blockAt b).entry (placed b var listed)
    listed
  obtain ⟨inside, phis, -, versions⟩ := complete.versionsAt_eq placed b 0
  rw [RenamePlan.renamePhis_eq _ (placed b), phis] at newest
  rw [versions]
  exact newest

/-- Renaming gives an operation the newest versions of its arguments, and its result the version
that is the newest one behind it.
-/
theorem exists_renamed {index : Nat} {op : Operation}
    (found : (plan.cfg.body b)[index]? = some op)
    : ∃ op' : Operation, (state.blockAt b).body[index]? = some op'
        ∧ op'.args.length = op.args.length
        ∧ (∀ (k : Nat) var name, op.args[k]? = some var → op'.args[k]? = some name →
            plan.isRenamed var = true → (state.versionsAt b index).current? var = some name)
        ∧ ∀ var, op.dest = some var → plan.isRenamed var = true →
            ∃ name, op'.dest = some name
              ∧ (state.versionsAt b (index + 1)).current? var = some name := by
  obtain ⟨inside, -, ⟨pushed, body⟩, versions⟩ := complete.versionsAt_eq placed b index
  obtain ⟨op', there, args, dest, visible⟩ := RenamePlan.renameBody_getElem? body found
  rw [← versions] at args dest visible
  refine ⟨op', there, by rw [args, List.length_map], ?_, ?_⟩
  · intro k var name old new renamed
    rw [args, List.getElem?_map, old] at new
    obtain rfl := Option.some.inj new
    exact RenamePlan.current?_eq_nameOf renamed (visible var (List.mem_of_getElem? old) renamed)
  · intro var result renamed
    rw [versionsAt_succ found, dest, result, RenamePlan.defineDest_some]
    exact ⟨_, rfl, (RenamePlan.current?_define renamed var).trans (if_pos rfl)⟩

end Complete

end Renaming

end ThreeAddress
