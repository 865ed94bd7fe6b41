import ThreeAddress.Proofs.Ssa.Versions
import ThreeAddress.Ssa.Conversion

/-! What renaming does to the versions of variables. Parameters, phis and operations all define
variables one after another; what holds of one definition is carried through all of them once.
-/

namespace ThreeAddress.RenamePlan

variable {plan : RenamePlan} {versions : Versions}

-----------------------------------------------------------------------------------------
-- One definition
-----------------------------------------------------------------------------------------

/-- The name that stands for a variable: its newest version in scope, or the marker if there is
none, or the variable itself if it is not renamed.
-/
def nameOf (plan : RenamePlan) (versions : Versions) (var : String) : String :=
  if plan.isRenamed var then (versions.current? var).getD plan.config.undefName else var

/-- A use that is accepted gets the name that stands for the variable, which is in scope. -/
theorem renameUse_eq_ok {var name : String} (ok : plan.renameUse versions var = .ok name)
    : name = plan.nameOf versions var
      ∧ (plan.isRenamed var = true → name ∈ versions.stack var) := by
  unfold renameUse at ok
  unfold nameOf
  split at ok
  · next renamed =>
      rw [if_pos renamed]
      cases current : versions.current? var with
      | none =>
          rw [current] at ok
          cases ok
      | some newest =>
          rw [current] at ok
          obtain rfl := Except.ok.inj ok
          exact ⟨rfl, fun _ => List.mem_of_head? current⟩
  · next kept =>
      rw [if_neg kept]
      exact ⟨(Except.ok.inj ok).symm, fun renamed => absurd renamed kept⟩

theorem define_of_isRenamed {var : String} (renamed : plan.isRenamed var = true)
    : plan.define versions var
      = (versionName var (versions.count var), (versions.fresh var).2, [var]) := by
  rw [define, if_pos renamed]
  rfl

theorem define_of_not_isRenamed {var : String} (kept : plan.isRenamed var = false)
    : plan.define versions var = (var, versions, []) := by
  rw [define, if_neg (by simp [kept])]

/-- A definition leaves the stacks of all other variables. -/
theorem stack_define_of_ne (versions : Versions) {var other : String} (different : var ≠ other)
    : (plan.define versions var).2.1.stack other = versions.stack other := by
  cases renamed : plan.isRenamed var with
  | false => rw [define_of_not_isRenamed renamed]
  | true => rw [define_of_isRenamed renamed, Versions.stack_fresh, if_neg different]

/-- A definition takes over its own variable and leaves the names of all others. -/
theorem nameOf_define (versions : Versions) (var other : String)
    : plan.nameOf (plan.define versions var).2.1 other
      = if var = other then (plan.define versions var).1 else plan.nameOf versions other := by
  by_cases same : var = other
  · subst same
    rw [if_pos rfl, nameOf]
    cases renamed : plan.isRenamed var with
    | false => simp [define_of_not_isRenamed renamed]
    | true => simp [define_of_isRenamed renamed, Versions.current?, Versions.stack_fresh]
  · rw [if_neg same, nameOf, nameOf, Versions.current?, Versions.current?,
      stack_define_of_ne versions same]

/-- No variable of a list that is kept has the name of a version. -/
def KeptApart (plan : RenamePlan) (vars : List String) : Prop :=
  ∀ kept ∈ vars, plan.isRenamed kept = false →
    ∀ var number, plan.isRenamed var = true → kept ≠ versionName var number

/-- Names without a dot are apart from all versions. -/
theorem keptApart_of_dotless (plan : RenamePlan) {vars : List String}
    (dotless : ∀ var ∈ vars, '.' ∉ var.toList)
    : plan.KeptApart vars :=
  fun kept member _ var number _ => ne_versionName_of_dotless (dotless kept member) var number

/-- The name of a definition does not stand for another variable, as long as no variable that is
kept has the name of a version.
-/
theorem define_ne_nameOf (coherent : versions.Coherent) {var other : String}
    (different : var ≠ other)
    (free : (plan.define versions var).1 ≠ plan.config.undefName)
    (apart
      : ∀ kept, kept = var ∨ kept = other → plan.isRenamed kept = false →
          ∀ v n, plan.isRenamed v = true → kept ≠ versionName v n)
    : (plan.define versions var).1 ≠ plan.nameOf versions other := by
  intro same
  cases mine : plan.isRenamed var with
  | false =>
      rw [define_of_not_isRenamed mine] at same free
      cases yours : plan.isRenamed other with
      | false =>
          rw [nameOf, if_neg (by simp [yours])] at same
          exact different same
      | true =>
          rw [nameOf, if_pos yours] at same
          cases current : versions.current? other with
          | none => exact free (by simpa [current] using same)
          | some newest =>
              obtain ⟨number, -, named⟩ := coherent other newest (List.mem_of_head? current)
              exact apart var (.inl rfl) mine other number yours
                (by simpa [current, named] using same)
  | true =>
      rw [define_of_isRenamed mine] at same free
      cases yours : plan.isRenamed other with
      | false =>
          rw [nameOf, if_neg (by simp [yours])] at same
          exact apart other (.inr rfl) yours var _ mine same.symm
      | true =>
          rw [nameOf, if_pos yours] at same
          cases current : versions.current? other with
          | none => exact free (by simpa [current] using same)
          | some newest =>
              obtain ⟨number, -, named⟩ := coherent other newest (List.mem_of_head? current)
              rw [current, Option.getD_some, named] at same
              exact different (versionName_inj same).1

-----------------------------------------------------------------------------------------
-- Definitions one after another
-----------------------------------------------------------------------------------------

/-- Defines variables from first to last. The results are the names defined, the versions after all
of them, and the variables that got versions.
-/
def defineAll (plan : RenamePlan) : Versions → List String → List String × Versions × List String
  | versions, [] => ([], versions, [])
  | versions, var :: rest =>
    let (name, versions, pushed) := plan.define versions var
    let (names, versions, later) := plan.defineAll versions rest
    (name :: names, versions, pushed ++ later)

theorem defineAll_cons (versions : Versions) (var : String) (rest : List String)
    : plan.defineAll versions (var :: rest)
      = ((plan.define versions var).1
            :: (plan.defineAll (plan.define versions var).2.1 rest).1,
          (plan.defineAll (plan.define versions var).2.1 rest).2.1,
          (plan.define versions var).2.2
            ++ (plan.defineAll (plan.define versions var).2.1 rest).2.2) :=
  rfl

theorem defineAll_append (versions : Versions) (first second : List String)
    : plan.defineAll versions (first ++ second)
      = let (names, inside, pushed) := plan.defineAll versions first
        let (more, final, later) := plan.defineAll inside second
        (names ++ more, final, pushed ++ later) := by
  induction first generalizing versions with
  | nil => rfl
  | cons var rest ih => simp only [List.cons_append, defineAll, ih, List.append_assoc]

/-- What the versions are before and after some definitions. The newest ones on a stack are those
that were pushed, below them nothing has changed, and counters only grow.
-/
structure Extends (before after : Versions) (pushed : List String) : Prop where
  stack_drop : ∀ var, (after.stack var).drop (pushed.count var) = before.stack var
  count_le : ∀ var, before.count var ≤ after.count var
  coherent : before.Coherent → after.Coherent

/-- A definition extends the versions, by one of its own variable if that is renamed. -/
theorem extends_define (plan : RenamePlan) (versions : Versions) (var : String)
    : Extends versions (plan.define versions var).2.1 (plan.define versions var).2.2 := by
  cases renamed : plan.isRenamed var with
  | false =>
      rw [define_of_not_isRenamed renamed]
      exact ⟨fun _ => rfl, fun _ => Nat.le_refl _, id⟩
  | true =>
      rw [define_of_isRenamed renamed]
      refine ⟨fun other => ?_, fun other => ?_, fun coherent => coherent.fresh var⟩
      · rw [Versions.stack_fresh, List.count_singleton]
        by_cases same : var = other
        · subst same
          simp
        · simp [same]
      · rw [Versions.count_fresh]
        split
        · next same =>
            subst same
            omega
        · exact Nat.le_refl _

/-- Definitions one after another extend the versions, by induction on the variables. -/
theorem extends_defineAll (plan : RenamePlan) (versions : Versions) (vars : List String)
    : Extends versions (plan.defineAll versions vars).2.1 (plan.defineAll versions vars).2.2 := by
  induction vars generalizing versions with
  | nil => exact ⟨fun _ => rfl, fun _ => Nat.le_refl _, id⟩
  | cons var rest ih =>
      have first := plan.extends_define versions var
      have later := ih (plan.define versions var).2.1
      refine ⟨fun other => ?_, fun other => ?_, fun coherent => ?_⟩
      · simp only [defineAll, List.count_append]
        rw [Nat.add_comm, ← List.drop_drop, later.stack_drop, first.stack_drop]
      · exact Nat.le_trans (first.count_le other) (later.count_le other)
      · exact later.coherent (first.coherent coherent)

/-- Definitions leave the stacks of all other variables, by induction on the variables. -/
theorem stack_defineAll_of_not_mem (plan : RenamePlan) (versions : Versions)
    {vars : List String} {other : String}
    (absent : other ∉ vars)
    : (plan.defineAll versions vars).2.1.stack other = versions.stack other := by
  induction vars generalizing versions with
  | nil => rfl
  | cons var rest ih =>
      simp only [List.mem_cons, not_or] at absent
      exact (ih _ absent.2).trans (stack_define_of_ne versions (Ne.symm absent.1))

-----------------------------------------------------------------------------------------
-- Parameters, phis and operations define variables one after another
-----------------------------------------------------------------------------------------

/-- Renamed parameters are definitions; they keep everything but their names. -/
theorem renameParams_eq (versions : Versions) (params : List Param)
    : let (params', final, pushed) := plan.renameParams versions params
      plan.defineAll versions (params.map Param.name)
        = (params'.map Param.name, final, pushed) := by
  induction params generalizing versions with
  | nil => rfl
  | cons param rest ih => simp only [renameParams, List.map_cons, defineAll, ih]

/-- The versions that phis create are definitions of their variables, which all are renamed. -/
theorem renamePhis_eq (versions : Versions) {vars : List String}
    (renamed : ∀ var ∈ vars, plan.isRenamed var = true)
    : plan.defineAll versions vars
      = ((renamePhis versions vars).1, (renamePhis versions vars).2, vars) := by
  induction vars generalizing versions with
  | nil => rfl
  | cons var rest ih =>
      have first := renamed var List.mem_cons_self
      have later := ih (versions.fresh var).2 fun other member =>
        renamed other (List.mem_cons_of_mem _ member)
      simp only [defineAll, define_of_isRenamed first, later]
      rfl

/-- Phis keep versions coherent. -/
theorem coherent_renamePhis {vars : List String}
    (renamed : ∀ var ∈ vars, plan.isRenamed var = true) (coherent : versions.Coherent)
    : (renamePhis versions vars).2.Coherent := by
  have extended := plan.extends_defineAll versions vars
  rw [renamePhis_eq versions renamed] at extended
  exact extended.coherent coherent

/-- The uses of an operation get the names that stand for them, by induction on the uses. -/
theorem mapM_renameUse_eq_ok {args names : List String}
    (ok : args.mapM (plan.renameUse versions) = .ok names)
    : names = args.map (plan.nameOf versions)
      ∧ ∀ arg ∈ args, plan.isRenamed arg = true →
          plan.nameOf versions arg ∈ versions.stack arg := by
  induction args generalizing names with
  | nil =>
      rw [List.mapM_nil] at ok
      exact ⟨(Except.ok.inj ok).symm, by simp⟩
  | cons arg rest ih =>
      rw [List.mapM_cons] at ok
      cases first : plan.renameUse versions arg with
      | error var =>
          rw [first] at ok
          cases ok
      | ok name =>
          cases others : rest.mapM (plan.renameUse versions) with
          | error var =>
              rw [first, others] at ok
              cases ok
          | ok more =>
              rw [first, others] at ok
              obtain ⟨rfl, front⟩ := renameUse_eq_ok first
              obtain ⟨rfl, back⟩ := ih others
              exact ⟨(Except.ok.inj ok).symm, List.forall_mem_cons.mpr ⟨front, back⟩⟩

/-- Defines the result of an operation, if it has one. -/
def defineDest (plan : RenamePlan) (versions : Versions)
    : Option String → Option String × Versions × List String
  | some var =>
    let (name, versions, pushed) := plan.define versions var
    (some name, versions, pushed)
  | none => (none, versions, [])

theorem defineDest_some (versions : Versions) (var : String)
    : plan.defineDest versions (some var)
      = (some (plan.define versions var).1, (plan.define versions var).2.1,
          (plan.define versions var).2.2) :=
  rfl

/-- An operation is renamed by looking up its arguments and then defining its result, and what
follows is renamed after that.
-/
theorem renameBody_cons (versions : Versions) (op : Operation) (rest : List Operation)
    : plan.renameBody versions (op :: rest)
      = (op.args.mapM (plan.renameUse versions)).bind fun args =>
          let (dest, inside, new) := plan.defineDest versions op.dest
          (plan.renameBody inside rest).bind fun (ops, final, later) =>
            .ok ({ op with args, dest } :: ops, final, new ++ later) := by
  rw [renameBody]
  cases op.dest <;> rfl

/-- One operation after renaming, where that succeeds: its arguments have the names that stand for
them and are in scope, its result is defined, and what follows is renamed after that.
-/
theorem renameBody_cons_eq_ok {op : Operation} {rest ops : List Operation} {final : Versions}
    {pushed : List String}
    (ok : plan.renameBody versions (op :: rest) = .ok (ops, final, pushed))
    : ∃ dest inside new ops' later,
        plan.defineDest versions op.dest = (dest, inside, new)
          ∧ plan.renameBody inside rest = .ok (ops', final, later)
          ∧ ops = { op with args := op.args.map (plan.nameOf versions), dest } :: ops'
          ∧ pushed = new ++ later
          ∧ ∀ arg ∈ op.args, plan.isRenamed arg = true →
              plan.nameOf versions arg ∈ versions.stack arg := by
  rw [renameBody_cons] at ok
  cases uses : op.args.mapM (plan.renameUse versions) with
  | error var =>
      rw [uses] at ok
      cases ok
  | ok args =>
      obtain ⟨rfl, visible⟩ := mapM_renameUse_eq_ok uses
      rcases defined : plan.defineDest versions op.dest with ⟨dest, inside, new⟩
      cases below : plan.renameBody inside rest with
      | error var =>
          simp only [uses, defined, below, Except.bind] at ok
          cases ok
      | ok renamed =>
          obtain ⟨ops', final', later⟩ := renamed
          simp only [uses, defined, below, Except.bind, Except.ok.injEq, Prod.mk.injEq] at ok
          obtain ⟨rfl, rfl, rfl⟩ := ok
          exact ⟨dest, inside, new, ops', later, rfl, below, rfl, rfl, visible⟩

/-- The results of renamed operations are definitions, by induction on the operations. -/
theorem renameBody_eq_ok {ops ops' : List Operation} {final : Versions} {pushed : List String}
    (ok : plan.renameBody versions ops = .ok (ops', final, pushed))
    : plan.defineAll versions (ops.filterMap Operation.dest)
      = (ops'.filterMap Operation.dest, final, pushed) := by
  induction ops generalizing versions ops' pushed with
  | nil =>
      obtain ⟨rfl, rfl, rfl⟩ : [] = ops' ∧ versions = final ∧ [] = pushed := by
        simpa [renameBody] using ok
      rfl
  | cons op rest ih =>
      obtain ⟨dest, inside, new, others, later, defined, body, rfl, rfl, -⟩ :=
        renameBody_cons_eq_ok ok
      have below := ih body
      cases result : op.dest with
      | none =>
          rw [result] at defined
          obtain ⟨rfl, rfl, rfl⟩ : none = dest ∧ versions = inside ∧ [] = new := by
            simpa [defineDest] using defined
          simpa [result] using below
      | some var =>
          rw [result, defineDest_some, Prod.mk.injEq, Prod.mk.injEq] at defined
          obtain ⟨rfl, rfl, rfl⟩ := defined
          simp only [List.filterMap_cons_some result, defineAll_cons, below]
          rfl

/-- An operation without the names that renaming changes. -/
def shape (op : Operation) : Operation :=
  { op with args := [], dest := none }

/-- Renaming changes nothing but names, by induction on the operations. -/
theorem map_shape_renameBody {ops ops' : List Operation} {final : Versions} {pushed : List String}
    (ok : plan.renameBody versions ops = .ok (ops', final, pushed))
    : ops'.map shape = ops.map shape := by
  induction ops generalizing versions ops' pushed with
  | nil =>
      obtain ⟨rfl, -⟩ : [] = ops' ∧ _ := by simpa [renameBody] using ok
      rfl
  | cons op rest ih =>
      obtain ⟨dest, inside, new, others, later, -, body, rfl, -⟩ := renameBody_cons_eq_ok ok
      rw [List.map_cons, List.map_cons, ih body]
      rfl

/-- All phis are for variables that are renamed. -/
def PhisRenamed (plan : RenamePlan) : Prop :=
  ∀ b : plan.cfg.Block, ∀ var ∈ plan.placement.varsAt b, plan.isRenamed var = true

/-- The variables defined in a block, those of its phis first. -/
def definedIn (plan : RenamePlan) (b : plan.cfg.Block) : List String :=
  plan.placement.varsAt b ++ (plan.cfg.body b).filterMap Operation.dest

/-- A renamed block defines the variables of its phis and then the results of its operations. -/
theorem renameBlock_eq_ok {b : plan.cfg.Block} {block : RenamedBlock} {pushed : List String}
    (ok : plan.renameBlock versions b = .ok (block, pushed))
    : ∃ inside body,
        renamePhis versions (plan.placement.varsAt b) = (block.phiDests, inside)
          ∧ plan.renameBody inside (plan.cfg.body b) = .ok (block.body, block.exit, body)
          ∧ pushed = plan.placement.varsAt b ++ body
          ∧ block.entry = versions := by
  rw [renameBlock] at ok
  cases phis : renamePhis versions (plan.placement.varsAt b) with
  | mk phiDests inside =>
      rw [phis] at ok
      cases renamed : plan.renameBody inside (plan.cfg.body b) with
      | error var =>
          simp only [renamed] at ok
          cases ok
      | ok result =>
          obtain ⟨body, exit, later⟩ := result
          simp only [renamed, Except.ok.injEq, Prod.mk.injEq] at ok
          obtain ⟨rfl, rfl⟩ := ok
          exact ⟨inside, later, rfl, renamed, rfl, rfl⟩

/-- A renamed block is its definitions one after another. -/
theorem renameBlock_defines (placed : plan.PhisRenamed) {b : plan.cfg.Block} {block : RenamedBlock}
    {pushed : List String} (ok : plan.renameBlock versions b = .ok (block, pushed))
    : plan.defineAll versions (plan.definedIn b)
      = (block.phiDests ++ block.body.filterMap Operation.dest, block.exit, pushed) := by
  obtain ⟨inside, later, phis, body, rfl, -⟩ := renameBlock_eq_ok ok
  rw [definedIn, defineAll_append, renamePhis_eq versions (placed b), phis]
  simp only [renameBody_eq_ok body]

theorem extends_renameBlock (placed : plan.PhisRenamed) {b : plan.cfg.Block} {block : RenamedBlock}
    {pushed : List String} (ok : plan.renameBlock versions b = .ok (block, pushed))
    : Extends versions block.exit pushed := by
  have extended := plan.extends_defineAll versions (plan.definedIn b)
  rwa [renameBlock_defines placed ok] at extended

/-- A block leaves the stacks of the variables that it does not define. -/
theorem stack_exit_of_not_mem (placed : plan.PhisRenamed) {b : plan.cfg.Block}
    {block : RenamedBlock} {pushed : List String}
    (ok : plan.renameBlock versions b = .ok (block, pushed)) {var : String}
    (absent : var ∉ plan.definedIn b)
    : block.exit.stack var = versions.stack var := by
  have kept := plan.stack_defineAll_of_not_mem versions absent
  rwa [renameBlock_defines placed ok] at kept

end ThreeAddress.RenamePlan
