import ThreeAddress.Proofs.Ssa.Names

/-! A name that a converted function uses is in scope: it is that of a parameter, or is defined in
front of the use or in a block that dominates it.
-/

namespace ThreeAddress

-----------------------------------------------------------------------------------------
-- Uses in a body
-----------------------------------------------------------------------------------------

/-- A use stays exposed as long as no definition of its variable is added, by induction on the
operations.
-/
theorem exposedUses_mono {killed killed' : List String} {ops : List Operation} {var : String}
    (exposed : var ∈ exposedUses killed ops) (still : var ∈ killed' → var ∈ killed)
    : var ∈ exposedUses killed' ops := by
  induction ops generalizing killed killed' with
  | nil => simp [exposedUses] at exposed
  | cons op rest ih =>
      rw [exposedUses, List.mem_append] at exposed ⊢
      rcases exposed with here | later
      · rw [List.mem_filter] at here ⊢
        exact .inl ⟨here.1, by simpa using fun known => by simpa [still known] using here.2⟩
      · refine .inr (ih later fun known => ?_)
        rcases List.mem_append.mp known with own | known
        · exact List.mem_append_left _ own
        · exact List.mem_append_right _ (still known)

/-- A use is exposed, or an operation in front of it defines its variable. By induction on the
operations.
-/
theorem exposed_or_defined (killed : List String) {ops : List Operation} {index : Nat}
    {op : Operation} (found : ops[index]? = some op) {var : String} (used : var ∈ op.args)
    : var ∈ exposedUses killed ops ∨ var ∈ killed
        ∨ var ∈ (ops.take index).filterMap Operation.dest := by
  induction ops generalizing killed index with
  | nil => simp at found
  | cons first rest ih =>
      rw [exposedUses, List.mem_append]
      cases index with
      | zero =>
          obtain rfl := Option.some.inj found
          by_cases known : var ∈ killed
          · exact .inr (.inl known)
          · exact .inl (.inl (List.mem_filter.mpr ⟨used, by simpa using known⟩))
      | succ index =>
          rcases ih (first.dest.toList ++ killed) found with exposed | known | defined
          · exact .inl (.inr exposed)
          · rcases List.mem_append.mp known with own | before
            · refine .inr (.inr (List.mem_filterMap.mpr ⟨first, List.mem_cons_self, ?_⟩))
              simpa using own
            · exact .inr (.inl before)
          · obtain ⟨earlier, listed, result⟩ := List.mem_filterMap.mp defined
            exact .inr (.inr (List.mem_filterMap.mpr
              ⟨earlier, List.mem_cons_of_mem _ listed, result⟩))

namespace RenamePlan

variable {plan : RenamePlan} {versions inside : Versions} {dest : Option String} {new : List String}

theorem mem_stack_defineDest {result : Option String}
    (defined : plan.defineDest versions result = (dest, inside, new)) {var name : String}
    (member : name ∈ inside.stack var)
    : dest = some name ∨ name ∈ versions.stack var := by
  cases result with
  | none =>
      obtain ⟨rfl, rfl, rfl⟩ : none = dest ∧ versions = inside ∧ [] = new := by
        simpa [defineDest] using defined
      exact .inr member
  | some other =>
      rw [defineDest_some, Prod.mk.injEq, Prod.mk.injEq] at defined
      obtain ⟨rfl, rfl, rfl⟩ := defined
      rcases mem_stack_define member with same | old
      · exact .inl (congrArg some same.symm)
      · exact .inr old

/-- A name that a renamed operation uses is defined by an operation in front of it, or it was in
scope before all of them, or it is that of a variable that is kept and has no definition in front.
By induction on the operations.
-/
theorem use_in_scope {ops ops' : List Operation} {final : Versions} {pushed : List String}
    (ok : plan.renameBody versions ops = .ok (ops', final, pushed)) {index : Nat} {op : Operation}
    (found : ops'[index]? = some op) {name : String} (used : name ∈ op.args)
    : (∃ before < index, ∃ earlier, ops'[before]? = some earlier ∧ earlier.dest = some name)
      ∨ (∃ var, name ∈ versions.stack var)
      ∨ plan.isRenamed name = false ∧ name ∈ exposedUses [] ops := by
  induction ops generalizing versions ops' pushed index with
  | nil =>
      obtain ⟨rfl, -⟩ : [] = ops' ∧ _ := by simpa [renameBody] using ok
      simp at found
  | cons first rest ih =>
      obtain ⟨dest, inside, new, others, later, defined, body, rfl, -, visible⟩ :=
        renameBody_cons_eq_ok ok
      cases index with
      | zero =>
          obtain rfl := Option.some.inj found
          obtain ⟨arg, member, rfl⟩ := List.mem_map.mp used
          cases renamed : plan.isRenamed arg with
          | true => exact .inr (.inl ⟨arg, visible arg member renamed⟩)
          | false =>
              rw [nameOf, if_neg (by simp [renamed])]
              refine .inr (.inr ⟨renamed, ?_⟩)
              rw [exposedUses]
              exact List.mem_append_left _ (List.mem_filter.mpr ⟨member, by simp⟩)
      | succ index =>
          rcases ih body found with ⟨before, front, earlier, there, result⟩ | ⟨var, old⟩
            | ⟨kept, exposed⟩
          · exact .inl ⟨before + 1, by omega, earlier, there, result⟩
          · rcases mem_stack_defineDest defined old with result | old
            · exact .inl ⟨0, by omega, _, rfl, result⟩
            · exact .inr (.inl ⟨var, old⟩)
          · by_cases result : first.dest = some name
            · rw [result, defineDest_some, define_of_not_isRenamed kept, Prod.mk.injEq] at defined
              exact .inl ⟨0, by omega, _, rfl, defined.1.symm⟩
            · refine .inr (.inr ⟨kept, ?_⟩)
              rw [exposedUses]
              refine List.mem_append_right _ (exposedUses_mono exposed fun own => ?_)
              exact absurd (by simpa using own) result

end RenamePlan

-----------------------------------------------------------------------------------------
-- Uses in a function
-----------------------------------------------------------------------------------------

namespace Renaming

variable {plan : RenamePlan} {state : Renaming plan} {initial : Versions}

/-- The operation at a position of a renamed block defines a name. -/
def Defines (state : Renaming plan) (name : String) (b : plan.cfg.Block) (index : Nat) : Prop :=
  ∃ op, (state.body b)[index]? = some op ∧ op.dest = some name

namespace Complete

theorem exists_defines (complete : state.Complete initial) {b : plan.cfg.Block} {name : String}
    (member : name ∈ state.namesIn b)
    : ∃ index, state.Defines name b index := by
  rw [← complete.filterMap_dest_body, List.mem_filterMap] at member
  obtain ⟨op, listed, result⟩ := member
  obtain ⟨index, found⟩ := List.mem_iff_getElem?.mp listed
  exact ⟨index, op, found, result⟩

theorem exists_defines_of_phi (complete : state.Complete initial) {b : plan.cfg.Block}
    {name : String} (member : name ∈ (state.blockAt b).phiDests)
    : ∃ index < (state.phis b).length, state.Defines name b index := by
  have listed : some name ∈ (state.phis b).map Operation.dest := by
    rw [complete.map_dest_phis]
    exact List.mem_map_of_mem member
  obtain ⟨op, phi, result⟩ := List.mem_map.mp listed
  obtain ⟨index, found⟩ := List.mem_iff_getElem?.mp phi
  have inside := (List.getElem?_eq_some_iff.mp found).1
  refine ⟨index, inside, op, ?_, result⟩
  rw [complete.body_eq, List.getElem?_append_left inside]
  exact found

/-- What is in scope at the top of a block is in scope before the first block, or defined in a block
that strictly dominates it.
-/
theorem entry_defined (complete : state.Complete initial) (sound : plan.Sound)
    (reached : ∀ b, plan.cfg.Reachable b) {b : plan.cfg.Block} {var name : String}
    (member : name ∈ (state.blockAt b).entry.stack var)
    : name ∈ initial.stack var
      ∨ ∃ d index, state.Defines name d index ∧ plan.cfg.StrictlyPathDominates d b := by
  rcases complete.mem_entry_stack sound reached member with param | ⟨d, strict, there⟩
  · exact .inl param
  · obtain ⟨index, defined⟩ := complete.exists_defines there
    exact .inr ⟨d, index, defined, strict⟩

/-- A name that an operation uses is in scope before the first block, or defined in front of it or
in a block that strictly dominates its own. A use of a variable that is kept needs no more: exposed
ones are of global variables, and those are renamed.
-/
theorem use_defined (complete : state.Complete initial) (sound : plan.Sound)
    (reached : ∀ b, plan.cfg.Reachable b) {b : plan.cfg.Block} {index : Nat} {op : Operation}
    (found : (state.body b)[index]? = some op) (other : op.isPhi = false) {name : String}
    (used : name ∈ op.args)
    : (∃ var, name ∈ initial.stack var)
      ∨ ∃ d before, state.Defines name d before
        ∧ (d = b ∧ before < index ∨ plan.cfg.StrictlyPathDominates d b) := by
  rw [complete.body_eq] at found
  have late : (state.phis b).length ≤ index := by
    by_contra early
    rw [List.getElem?_append_left (by omega)] at found
    have phi := isPhi_of_mem_phis (List.mem_of_getElem? found)
    simp [other] at phi
  rw [List.getElem?_append_right late] at found
  obtain ⟨pushed, renamed⟩ := complete.renamed b
  obtain ⟨inside, later, phis, body, -⟩ := RenamePlan.renameBlock_eq_ok renamed
  rcases RenamePlan.use_in_scope body found used with ⟨before, front, earlier, there, result⟩
    | ⟨var, member⟩ | ⟨kept, exposed⟩
  · refine .inr ⟨b, (state.phis b).length + before, ⟨earlier, ?_, result⟩, .inl ⟨rfl, by omega⟩⟩
    rw [complete.body_eq, List.getElem?_append_right (by omega), Nat.add_sub_cancel_left]
    exact there
  · have origin := plan.mem_stack_defineAll (state.blockAt b).entry (plan.placement.varsAt b)
      var name
    rw [RenamePlan.renamePhis_eq _ (sound.phisRenamed b), phis] at origin
    rcases origin member with phi | old
    · obtain ⟨before, early, defined⟩ := complete.exists_defines_of_phi phi
      exact .inr ⟨b, before, defined, .inl ⟨rfl, by omega⟩⟩
    · rcases complete.entry_defined sound reached old with param | ⟨d, before, defined, strict⟩
      · exact .inl ⟨var, param⟩
      · exact .inr ⟨d, before, defined, .inr strict⟩
  · have global := sound.exposed_global b name exposed
    simp [RenamePlan.isRenamed, global] at kept

/-- A name in the slot of a phi, unless it is the marker, is in scope before the first block, or
defined in a block that dominates the one that the slot is for.
-/
theorem slot_defined (complete : state.Complete initial) (sound : plan.Sound)
    (reached : ∀ b, plan.cfg.Reachable b) {p : plan.cfg.Block} {var : String}
    (named : state.slot var p ≠ plan.config.undefName)
    : state.slot var p ∈ initial.stack var
      ∨ ∃ d index, state.Defines (state.slot var p) d index ∧ plan.cfg.PathDominates d p := by
  rw [complete.slot_eq] at named ⊢
  cases current : (state.blockAt p).exit.current? var with
  | none => simp [current] at named
  | some name =>
      rw [Option.getD_some]
      rcases complete.mem_exit_stack sound (List.mem_of_head? current) with here | above
      · obtain ⟨index, defined⟩ := complete.exists_defines here
        exact .inr ⟨p, index, defined, .refl (reached p)⟩
      · rcases complete.entry_defined sound reached above with param | ⟨d, index, defined, strict⟩
        · exact .inl param
        · exact .inr ⟨d, index, defined, strict.2⟩

end Complete

end Renaming

end ThreeAddress
