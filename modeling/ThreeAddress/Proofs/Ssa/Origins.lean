import Mathlib.Data.List.Forall2
import ThreeAddress.Proofs.Ssa.Names

/-! What the names of a converted function stand for. Parameters and operations are renamed one by
one, and each definition declares a type that some definition of its variable declares.
-/

namespace ThreeAddress

/-- Where two lists are related element by element, each element of the second is related to one of
the first.
-/
theorem exists_of_mem_of_forall₂ {α β : Type} {R : α → β → Prop} {l : List α} {l' : List β}
    (related : List.Forall₂ R l l') {b : β} (member : b ∈ l')
    : ∃ a ∈ l, R a b := by
  induction related with
  | nil => exact absurd member List.not_mem_nil
  | cons here _ ih =>
      rcases List.mem_cons.mp member with rfl | later
      · exact ⟨_, List.mem_cons_self, here⟩
      · obtain ⟨a, listed, holds⟩ := ih later
        exact ⟨a, List.mem_cons_of_mem _ listed, holds⟩

namespace RenamePlan

variable {plan : RenamePlan} {versions final : Versions} {pushed : List String}

/-- A name stands for a variable: it is one of its versions, or the variable itself if that is
kept.
-/
inductive StandsFor (plan : RenamePlan) (name var : String) : Prop
  | version (number : Nat) (renamed : plan.isRenamed var = true)
    (named : name = versionName var number)
  | kept (unrenamed : plan.isRenamed var = false) (same : name = var)

theorem standsFor_define (plan : RenamePlan) (versions : Versions) (var : String)
    : plan.StandsFor (plan.define versions var).1 var := by
  cases renamed : plan.isRenamed var with
  | true =>
      rw [define_of_isRenamed renamed]
      exact .version (versions.count var) renamed rfl
  | false =>
      rw [define_of_not_isRenamed renamed]
      exact .kept renamed rfl

/-- A name that is spelled like a version stands for the variable of that version only, as long as
no variable that is kept is spelled so.
-/
theorem StandsFor.eq_of_versionName {vars : List String} {other var : String} {number : Nat}
    (stands : plan.StandsFor (versionName var number) other) (renamed : plan.isRenamed var = true)
    (apart : plan.KeptApart vars) (listed : other ∈ vars)
    : other = var := by
  rcases stands with ⟨number', _, named⟩ | ⟨unrenamed, same⟩
  · exact (versionName_inj named).1.symm
  · exact absurd same.symm (apart other listed unrenamed var number renamed)

/-- A name in scope is a version of its variable. -/
theorem standsFor_of_mem_stack {name var : String} (coherent : versions.Coherent)
    (renamed : plan.isRenamed var = true) (visible : name ∈ versions.stack var)
    : plan.StandsFor name var := by
  obtain ⟨number, -, named⟩ := coherent var name visible
  exact .version number renamed named

/-- A parameter after renaming: it keeps its type, and its name stands for the old one. -/
structure RenamesParam (plan : RenamePlan) (param param' : Param) : Prop where
  same_type : param'.ty = param.ty
  name : plan.StandsFor param'.name param.name

/-- An operation after renaming: its arguments and its result stand for the old ones, one by one,
and nothing else is changed.
-/
structure RenamesOperation (plan : RenamePlan) (op op' : Operation) : Prop where
  same_shape : shape op' = shape op
  args : List.Forall₂ plan.StandsFor op'.args op.args
  dest : Option.Rel plan.StandsFor op'.dest op.dest

theorem RenamesOperation.same_type {op op' : Operation} (renames : plan.RenamesOperation op op')
    : op'.ty = op.ty := by
  have same := congrArg Operation.ty renames.same_shape
  exact same

/-- Parameters are renamed one by one, by induction on the parameters. -/
theorem forall₂_renameParams {params params' : List Param}
    (ok : plan.renameParams versions params = (params', final, pushed))
    : List.Forall₂ plan.RenamesParam params params' := by
  induction params generalizing versions params' final pushed with
  | nil =>
      obtain ⟨rfl, -⟩ := Prod.mk.inj ok
      exact .nil
  | cons first rest ih =>
      obtain ⟨rfl, -⟩ := Prod.mk.inj ok
      exact .cons ⟨rfl, plan.standsFor_define versions first.name⟩ (ih rfl)

/-- A use that is accepted gets a name that stands for the variable. -/
theorem standsFor_nameOf {arg : String} (coherent : versions.Coherent)
    (visible : plan.isRenamed arg = true → plan.nameOf versions arg ∈ versions.stack arg)
    : plan.StandsFor (plan.nameOf versions arg) arg := by
  cases renamed : plan.isRenamed arg with
  | true => exact standsFor_of_mem_stack coherent renamed (visible renamed)
  | false => exact .kept renamed (by rw [nameOf, if_neg (by simp [renamed])])

/-- The result of an operation gets a name that stands for it, and versions stay coherent. -/
theorem standsFor_defineDest (plan : RenamePlan) (coherent : versions.Coherent)
    (dest : Option String)
    : Option.Rel plan.StandsFor (plan.defineDest versions dest).1 dest
      ∧ (plan.defineDest versions dest).2.1.Coherent := by
  cases dest with
  | none => exact ⟨.none, coherent⟩
  | some var =>
      rw [defineDest_some]
      exact ⟨.some (plan.standsFor_define versions var),
        (plan.extends_define versions var).coherent coherent⟩

/-- Operations are renamed one by one, by induction on the operations. -/
theorem forall₂_renameBody {ops ops' : List Operation} (coherent : versions.Coherent)
    (ok : plan.renameBody versions ops = .ok (ops', final, pushed))
    : List.Forall₂ plan.RenamesOperation ops ops' := by
  induction ops generalizing versions ops' pushed with
  | nil =>
      obtain ⟨rfl, -⟩ : [] = ops' ∧ _ := by simpa [renameBody] using ok
      exact .nil
  | cons op rest ih =>
      obtain ⟨dest, inside, new, others, later, defined, body, rfl, -, visible⟩ :=
        renameBody_cons_eq_ok ok
      obtain ⟨result, inOrder⟩ := plan.standsFor_defineDest coherent op.dest
      rw [defined] at result inOrder
      refine .cons ⟨rfl, ?_, result⟩ (ih inOrder body)
      rw [List.forall₂_map_left_iff, List.forall₂_same]
      exact fun arg used => standsFor_nameOf coherent (visible arg used)

theorem phi_origin {versions : Versions} {vars : List String} {var name : String}
    (paired : (var, name) ∈ vars.zip (renamePhis versions vars).1)
    : ∃ number, name = versionName var number := by
  induction vars generalizing versions with
  | nil => simp at paired
  | cons first rest ih =>
      simp only [renamePhis, List.zip_cons_cons, List.mem_cons, Prod.mk.injEq] at paired
      rcases paired with ⟨rfl, rfl⟩ | later
      · exact ⟨versions.count var, rfl⟩
      · exact ih later

end RenamePlan

namespace Cfg

variable {f : Function} {allow : Bool} {g : Cfg}

/-- The definitions that phis are placed for are those of the function. -/
theorem map_defs_globals (ok : ofFunction? f allow = .ok g)
    : (g.globals f.params).defs.map (fun d => (d.var, d.ty)) = f.typedDefinitions := by
  rw [Function.typedDefinitions, Function.operations_eq_flatMap ok, List.filterMap_flatMap,
    globals, List.map_append, List.map_map, List.map_flatMap]
  congr 2
  funext b
  rw [defsIn, List.map_filterMap]
  simp only [Option.map_map]
  rfl

theorem isDefined_globals (ok : ofFunction? f allow = .ok g) {var : String}
    : (g.globals f.params).isDefined var = true ↔ var ∈ f.definitions := by
  rw [Globals.isDefined_iff, ← f.map_fst_typedDefinitions, ← map_defs_globals ok, List.map_map]
  exact List.mem_map.symm

/-- The type of a phi is one that a definition of its variable declares. -/
theorem mem_typedDefinitions_of_tyOf? (ok : ofFunction? f allow = .ok g) {var : String} {ty : Ty}
    (typed : (g.globals f.params).tyOf? var = some ty)
    : (var, some ty) ∈ f.typedDefinitions := by
  obtain ⟨d, member, declares⟩ := List.exists_of_findSome?_eq_some typed
  obtain ⟨listed, name⟩ := List.mem_filter.mp member
  obtain rfl : d.var = var := by simpa using name
  rw [← map_defs_globals ok, ← declares]
  exact List.mem_map_of_mem listed (f := fun d => (d.var, d.ty))

end Cfg

namespace Converts

variable {f f' : Function} {config : SsaConfig} {plan : RenamePlan} {initial : Versions}
  {state : Renaming plan}

theorem mem_typedDefinitions_of_tyOf? (conversion : Converts f config f' plan initial state)
    {var : String} {ty : Ty} (typed : plan.globals.tyOf? var = some ty)
    : (var, some ty) ∈ f.typedDefinitions := by
  have planned : (plan.cfg.renamePlan f.params config).globals.tyOf? var = some ty
      → (var, some ty) ∈ f.typedDefinitions :=
    Cfg.mem_typedDefinitions_of_tyOf? conversion.graph
  rw [conversion.plan_eq] at planned
  exact planned typed

/-- The operations of a block are renamed one by one. -/
theorem forall₂_body (conversion : Converts f config f' plan initial state) (b : plan.cfg.Block)
    : List.Forall₂ plan.RenamesOperation (plan.cfg.body b) (state.blockAt b).body := by
  obtain ⟨pushed, renamed⟩ := conversion.complete.renamed b
  obtain ⟨inside, later, phis, body, -⟩ := RenamePlan.renameBlock_eq_ok renamed
  have coherent := RenamePlan.coherent_renamePhis (conversion.phisRenamed b)
    (conversion.complete.coherent b)
  rw [phis] at coherent
  exact RenamePlan.forall₂_renameBody coherent body

/-- The phis of a block define versions of the variables that they are for. -/
theorem phiDest_origin (conversion : Converts f config f' plan initial state)
    {b : plan.cfg.Block} {var name : String}
    (paired : (var, name) ∈ (plan.placement.varsAt b).zip (state.blockAt b).phiDests)
    : ∃ number, name = versionName var number := by
  obtain ⟨pushed, renamed⟩ := conversion.complete.renamed b
  obtain ⟨inside, later, phis, -⟩ := RenamePlan.renameBlock_eq_ok renamed
  have dests := congrArg Prod.fst phis
  simp only at dests
  rw [← dests] at paired
  exact RenamePlan.phi_origin paired

/-- The type that a definition of the converted function declares is one that a definition of the
variable declares that its name stands for.
-/
theorem typed_origin (conversion : Converts f config f' plan initial state)
    {name : String} {ty : Ty} (member : (name, some ty) ∈ f'.typedDefinitions)
    : ∃ var, plan.StandsFor name var ∧ (var, some ty) ∈ f.typedDefinitions := by
  have complete := conversion.complete
  rw [Function.typedDefinitions, List.mem_append] at member
  rcases member with parameter | operation
  · obtain ⟨param, listed, same⟩ := List.mem_map.mp parameter
    obtain ⟨rfl, rfl⟩ : param.name = name ∧ param.ty = ty := by simpa using same
    obtain ⟨pushed, params⟩ := conversion.params
    obtain ⟨old, there, renames⟩ :=
      exists_of_mem_of_forall₂ (RenamePlan.forall₂_renameParams params) listed
    refine ⟨old.name, renames.name, List.mem_append_left _ (List.mem_map.mpr ⟨old, there, ?_⟩)⟩
    rw [renames.same_type]
  · rw [Function.operations, conversion.body, Cfg.operations_assemble, List.mem_filterMap]
      at operation
    obtain ⟨op, listed, same⟩ := operation
    obtain ⟨b, -, inBlock⟩ := List.mem_flatMap.mp listed
    obtain ⟨_, result, same⟩ := Option.map_eq_some_iff.mp same
    obtain ⟨rfl, type⟩ := Prod.mk.inj same
    rw [complete.body_eq, List.mem_append] at inBlock
    rcases inBlock with phi | other
    · obtain ⟨var, dest, paired, rfl⟩ := Renaming.exists_of_mem_phis phi
      obtain rfl : dest = _ := Option.some.inj result
      have isRenamed := conversion.phisRenamed b var (List.of_mem_zip paired).1
      obtain ⟨number, named⟩ := conversion.phiDest_origin paired
      exact ⟨var, .version number isRenamed named, conversion.mem_typedDefinitions_of_tyOf? type⟩
    · obtain ⟨old, inOld, renames⟩ :=
        exists_of_mem_of_forall₂ (conversion.forall₂_body b) other
      have results := renames.dest
      rw [result] at results
      cases oldResult : old.dest with
      | none =>
          rw [oldResult] at results
          cases results
      | some var =>
          rw [oldResult] at results
          obtain ⟨stands⟩ := results
          refine ⟨var, stands, List.mem_append_right _ (List.mem_filterMap.mpr ⟨old, ?_, ?_⟩)⟩
          · exact Function.mem_operations_of_mem_body conversion.graph inOld
          · rw [oldResult, ← renames.same_type, type]
            rfl

/-- In the slots of a phi stand names of its variable, which declare no other type than the phi
does if all definitions of the variable declare the same.
-/
theorem slot_type (conversion : Converts f config f' plan initial state)
    (apart : plan.KeptApart f.definitions)
    (agree
      : ∀ var ty ty', (var, some ty) ∈ f.typedDefinitions → (var, some ty') ∈ f.typedDefinitions →
          ty = ty')
    {p : plan.cfg.Block} {var : String} (renamed : plan.isRenamed var = true)
    (named : state.slot var p ≠ plan.config.undefName) {expected found : Ty}
    (phi : plan.globals.tyOf? var = some expected)
    (defined : (state.slot var p, some found) ∈ f'.typedDefinitions)
    : expected = found := by
  have complete := conversion.complete
  have placed := conversion.phisRenamed
  rw [complete.slot_eq] at named defined
  cases current : (state.blockAt p).exit.current? var with
  | none => simp [current] at named
  | some name =>
      rw [current, Option.getD_some] at defined
      obtain ⟨pushed, block⟩ := complete.renamed p
      have coherent := (RenamePlan.extends_renameBlock placed block).coherent (complete.coherent p)
      obtain ⟨number, -, rfl⟩ := coherent var name (List.mem_of_head? current)
      obtain ⟨other, stands, typed⟩ := conversion.typed_origin defined
      have listed : other ∈ f.definitions := by
        rw [← f.map_fst_typedDefinitions]
        exact List.mem_map_of_mem typed (f := Prod.fst)
      obtain rfl := stands.eq_of_versionName renamed apart listed
      exact agree other expected found (conversion.mem_typedDefinitions_of_tyOf? phi) typed

end Converts

end ThreeAddress
