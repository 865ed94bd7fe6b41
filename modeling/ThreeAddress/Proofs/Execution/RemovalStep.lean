import ThreeAddress.Proofs.Simplify.Removal

/-! A step of a function is followed by a function from which dead code has been removed in one
round: this one skips what was removed, and the two agree on every variable whose value may still
be read.
-/

namespace ThreeAddress

variable {V : Type}

-----------------------------------------------------------------------------------------
-- Variables that may still be read
-----------------------------------------------------------------------------------------

/-- The value of the variable may still be read: it is used somewhere, and the instructions up to
the next label do not define it first.
-/
def Matters (used : NameSet) (rest : List Instruction) (var : String) : Prop :=
  used.contains var = true ∧ isOverwritten var rest = false

/-- The environments give the same value to all variables that may still be read. -/
def AgreeOn (used : NameSet) (rest : List Instruction) (env env' : Env V) : Prop :=
  ∀ var, Matters used rest var → env var = env' var

/-- All used variables matter where a block starts. -/
theorem matters_of_startsBlock {used : NameSet} {rest : List Instruction} {var : String}
    (starts : StartsBlock rest) (known : used.contains var = true)
    : Matters used rest var := by
  refine ⟨known, ?_⟩
  match rest with
  | [] => rfl
  | .label name :: rest => rfl
  | .operation op :: rest => simp [StartsBlock, Instruction.operation?] at starts

/-- The arguments of an operation matter in front of it. -/
theorem matters_of_arg {used : NameSet} {op : Operation} {rest : List Instruction} {var : String}
    (known : used.contains var = true) (arg : var ∈ op.args)
    : Matters used (.operation op :: rest) var := by
  refine ⟨known, ?_⟩
  rw [isOverwritten, if_pos (by simpa using arg)]

/-- What matters behind an operation matters in front of it, except its destination. -/
theorem Matters.before {used : NameSet} {op : Operation} {rest : List Instruction} {var : String}
    (matters : Matters used rest var) (other : op.dest ≠ some var)
    : Matters used (.operation op :: rest) var := by
  refine ⟨matters.1, ?_⟩
  rw [isOverwritten]
  split
  · rfl
  · rw [matters.2, Bool.or_false]
    simpa using other

/-- The destination of a dead operation does not matter behind it. -/
theorem not_matters_of_isDead {used : NameSet} {op : Operation} {rest : List Instruction}
    {var : String} (dead : op.isDead used rest = true) (dest : op.dest = some var)
    : ¬ Matters used rest var := by
  intro both
  obtain ⟨known, kept⟩ := both
  rw [Operation.isDead, dest] at dead
  simp only [known, kept, Bool.not_true, Bool.or_false, Bool.and_false, Bool.false_eq_true]
    at dead

/-- Agreement survives the same assignment on both sides. -/
theorem AgreeOn.keep {used : NameSet} {op : Operation} {rest : List Instruction} {env env' : Env V}
    (agree : AgreeOn used (.operation op :: rest) env env') (value : V)
    : AgreeOn used rest (env.assign op.dest value) (env'.assign op.dest value) := by
  intro var matters
  by_cases dest : op.dest = some var
  · simp only [Env.assign, if_pos dest]
  · simp only [Env.assign, if_neg dest]
    exact agree var (matters.before dest)

/-- Agreement survives what a dead operation assigns on one side. -/
theorem AgreeOn.drop {used : NameSet} {op : Operation} {rest : List Instruction} {env env' : Env V}
    (agree : AgreeOn used (.operation op :: rest) env env') (dead : op.isDead used rest = true)
    (value : V)
    : AgreeOn used rest (env.assign op.dest value) env' := by
  intro var matters
  by_cases dest : op.dest = some var
  · exact absurd matters (not_matters_of_isDead dead dest)
  · simp only [Env.assign, if_neg dest]
    exact agree var (matters.before dest)

-----------------------------------------------------------------------------------------
-- Pieces of a body
-----------------------------------------------------------------------------------------

/-- Nothing stands behind what ends a block in a piece of a body either. -/
theorem TerminatorsLast.of_suffix {rest body : List Instruction} (last : TerminatorsLast body)
    (suffix : rest <:+ body)
    : TerminatorsLast rest := by
  obtain ⟨front, rfl⟩ := suffix
  induction front with
  | nil => exact last
  | cons instruction front ih =>
      cases instruction with
      | label name => exact ih last
      | operation op => exact ih last.2

/-- Behind a label phis may stand. -/
theorem PhisLead.of_suffix {label : String} {rest body : List Instruction} {top : Bool}
    (lead : PhisLead top body) (suffix : .label label :: rest <:+ body)
    : PhisLead true rest := by
  obtain ⟨front, rfl⟩ := suffix
  induction front generalizing top with
  | nil => exact lead
  | cons instruction front ih =>
      cases instruction with
      | label name => exact ih lead
      | operation op => exact ih lead.2

/-- A phi has the same value in environments that agree on its arguments. -/
theorem Env.phiValue?_congr {env env' : Env V} {source : Option String} {phi : Operation}
    (agree : ∀ var ∈ phi.args, env var = env' var)
    : env.phiValue? source phi = env'.phiValue? source phi := by
  rw [phiValue?, phiValue?]
  cases found : phi.slots.find? fun slot => some slot.2 == source with
  | none => rfl
  | some slot =>
      have member : slot.1 ∈ phi.args := (List.of_mem_zip (List.mem_of_find?_eq_some found)).1
      simp only [Option.map_some, agree _ member]

-----------------------------------------------------------------------------------------
-- The shortened function follows the original one
-----------------------------------------------------------------------------------------

/-- A state of the shortened function belongs to one of the original: what is left to do is the rest
without what is dead, possibly behind a label that the original has yet to pass. The block of origin
must be the same only if there are phis to ask for it.
-/
structure Trails (body : List Instruction) (state state' : State V) : Prop where
  suffix : state.rest <:+ body
  block : containsPhi body = true → state.block = state'.block
  rest
    : removeDead (usedNames body) false state.rest = state'.rest
      ∨ containsPhi body = false
        ∧ ∃ label, removeDead (usedNames body) false state.rest = .label label :: state'.rest
  env : AgreeOn (usedNames body) state.rest state.env state'.env
  trace : state.trace = state'.trace

/-- An execution of the shortened function belongs to one of the original that is not stuck. -/
inductive Follows (body : List Instruction) : Execution V → Execution V → Prop
  | running {state state' : State V} (trails : Trails body state state')
    : Follows body (.running state) (.running state')
  | finished (trace : Trace V) : Follows body (.finished trace) (.finished trace)

/-- What is left of the phis at the top of a block has values, and assigning these on one side and
the values of all phis on the other leaves environments that agree on what matters behind the phis.
-/
def PhisFollow (used : NameSet) (source : Option String) (rest : List Instruction)
    (values : List V) (old' env env' : Env V)
    : Prop :=
  afterPhis (removeDead used false rest) = removeDead used false (afterPhis rest)
  ∧ ∃ values',
      (leadingPhis (removeDead used false rest)).mapM (old'.phiValue? source) = some values'
      ∧ AgreeOn used (afterPhis rest) (env.assignAll ((leadingPhis rest).map (·.dest)) values)
          (env'.assignAll ((leadingPhis (removeDead used false rest)).map (·.dest)) values')

/-- Where no phi may stand there is nothing to assign, before and after removal. -/
theorem phisFollow_of_no_phi {used : NameSet} {source : Option String} {rest : List Instruction}
    (last : TerminatorsLast rest) (lead : PhisLead false rest) {values : List V}
    {old' env env' : Env V} (agree : AgreeOn used rest env env')
    : PhisFollow used source rest values old' env env' := by
  obtain ⟨noPhi, same⟩ := leadingPhis_eq_nil lead
  have lead' : PhisLead false (removeDead used false rest) := lead.removeDead last
  obtain ⟨noPhi', same'⟩ := leadingPhis_eq_nil lead'
  rw [PhisFollow, noPhi, noPhi', same, same']
  exact ⟨rfl, [], rfl, agree⟩

/-- Phis at the top of a block follow by induction on them: one that is dead assigns on one side
only. All of them read the environments from before the first, which agree on everything used.
-/
theorem phisFollow {used : NameSet} {old old' : Env V} {source : Option String}
    (before : ∀ var, used.contains var = true → old var = old' var) {rest : List Instruction}
    (last : TerminatorsLast rest) {top : Bool} (lead : PhisLead top rest)
    (known : ∀ op ∈ leadingPhis rest, ∀ var ∈ op.args, used.contains var = true)
    {values : List V} (valued : (leadingPhis rest).mapM (old.phiValue? source) = some values)
    {env env' : Env V} (agree : AgreeOn used rest env env')
    : PhisFollow used source rest values old' env env' := by
  induction rest generalizing top values env env' with
  | nil => exact phisFollow_of_no_phi last trivial agree
  | cons instruction rest ih =>
      cases instruction with
      | label name => exact phisFollow_of_no_phi last lead agree
      | operation op =>
          cases phi : op.isPhi with
          | false =>
              refine phisFollow_of_no_phi last ⟨fun isPhi => ?_, by simpa [phi] using lead.2⟩ agree
              exact absurd isPhi (by simp [phi])
          | true =>
              rw [leadingPhis, if_pos phi] at valued known
              rw [List.mapM_cons] at valued
              obtain ⟨value, first, valued⟩ := Option.bind_eq_some_iff.mp valued
              obtain ⟨others, tail, valued⟩ := Option.bind_eq_some_iff.mp valued
              obtain rfl := Option.some.inj valued
              have knownTail := fun other member => known other (List.mem_cons_of_mem op member)
              rw [PhisFollow, removeDead_operation last, leadingPhis, if_pos phi, afterPhis,
                if_pos phi, List.map_cons, Env.assignAll]
              split
              · next dead => exact ih last.2 lead.2 knownTail tail (agree.drop dead value)
              · obtain ⟨after, values', valued', agree'⟩ :=
                  ih last.2 lead.2 knownTail tail (agree.keep value)
                have same : old'.phiValue? source op = some value := by
                  rw [← first]
                  exact (Env.phiValue?_congr fun var arg =>
                    before var (known op (by simp) var arg)).symm
                rw [leadingPhis, if_pos phi, afterPhis, if_pos phi, List.map_cons]
                refine ⟨after, value :: values', ?_, agree'⟩
                rw [List.mapM_cons, same, valued']
                rfl

/-- Without phis a block is entered from anywhere, and nothing changes. -/
theorem enterBlock_of_not_containsPhi {rest body : List Instruction} (suffix : rest <:+ body)
    (none : containsPhi body = false) (source : Option String) (label : String) (env : Env V)
    (trace : Trace V)
    : enterBlock source label rest env trace = .running { block := label, rest, env, trace } := by
  have lead : PhisLead false rest := by
    refine phisLead_of_not_containsPhi (containsPhi_eq_false.mpr fun op member => ?_)
    exact containsPhi_eq_false.mp none op (suffix.subset member)
  obtain ⟨noPhi, same⟩ := leadingPhis_eq_nil lead
  simp [enterBlock, noPhi, same, Env.assignAll]

/-- Entering a block of the shortened function follows entering it in the original, when everything
used has the same value.
-/
theorem enterBlock_follows {body rest : List Instruction} (last : TerminatorsLast body)
    (suffix : rest <:+ body) (lead : PhisLead true rest) {label : String}
    {source source' : Option String} (sources : containsPhi body = true → source = source')
    {env env' : Env V} {trace : Trace V}
    (agree : ∀ var, (usedNames body).contains var = true → env var = env' var)
    (unstuck : (enterBlock source label rest env trace).status ≠ .stuck)
    : Follows body (enterBlock source label rest env trace)
        (enterBlock source' label (removeDead (usedNames body) false rest) env' trace) := by
  have last := last.of_suffix suffix
  have known : ∀ op ∈ leadingPhis rest, ∀ var ∈ op.args, (usedNames body).contains var = true :=
    fun op member var arg =>
      contains_usedNames.mpr ⟨_, suffix.subset (mem_of_mem_leadingPhis member).1, arg⟩
  cases valued : (leadingPhis rest).mapM (env.phiValue? source) with
  | none => simp [enterBlock, valued, Execution.status] at unstuck
  | some values =>
      obtain ⟨after, values', valued', agree'⟩ :=
        phisFollow agree last lead known valued (fun var matters => agree var matters.1)
      have source_irrelevant
          : (leadingPhis (removeDead (usedNames body) false rest)).mapM (env'.phiValue? source')
            = some values' := by
        cases named : containsPhi body with
        | true => rwa [← sources named]
        | false =>
            have none := containsPhi_eq_false.mp named
            have noPhi : leadingPhis (removeDead (usedNames body) false rest) = [] := by
              rw [List.eq_nil_iff_forall_not_mem]
              intro op member
              obtain ⟨listed, phi⟩ := mem_of_mem_leadingPhis member
              have fresh := none op (suffix.subset ((mem_removeDead last).1 listed))
              rw [fresh] at phi
              exact absurd phi (by simp)
            rw [noPhi] at valued' ⊢
            exact valued'
      simp only [enterBlock, valued, source_irrelevant]
      exact .running {
        suffix := (afterPhis_suffix rest).trans suffix
        block := fun _ => rfl
        rest := .inl after.symm
        env := agree'
        trace := rfl
      }

/-- Running into a label is followed by running into the same label or, where it is still in front,
by nothing.
-/
theorem step_label_follows {I : Interpretation V} {body rest : List Instruction}
    (good : Removable body) {name block : String} {env : Env V} {trace : Trace V}
    {state' : State V}
    (trails : Trails body { block, rest := .label name :: rest, env, trace } state')
    (unstuck : (enterBlock (some block) name rest env trace).status ≠ .stuck)
    : Follows body (enterBlock (some block) name rest env trace) (.running state')
      ∨ Follows body (enterBlock (some block) name rest env trace)
          (I.step (removalRound body) state') := by
  obtain ⟨block', rest', env', trace'⟩ := state'
  obtain ⟨suffix, sameBlock, removed, agree, rfl⟩ := trails
  simp only at suffix sameBlock removed agree
  have tail : rest <:+ body := (List.suffix_cons _ _).trans suffix
  have everywhere (var : String) (known : (usedNames body).contains var = true)
      : env var = env' var :=
    agree var (matters_of_startsBlock rfl known)
  rw [removeDead] at removed
  rcases removed with rfl | ⟨off, label, shape⟩
  · refine .inr (enterBlock_follows good.terminatorsLast tail (good.phisLead.of_suffix suffix)
      (fun on => ?_) everywhere unstuck)
    rw [sameBlock on]
  · apply Or.inl
    rw [enterBlock_of_not_containsPhi tail off]
    exact .running {
      suffix := tail
      block := by simp [off]
      rest := .inl (List.cons.inj shape).2
      env := fun var matters => everywhere var matters.1
      trace := rfl
    }

/-- An operation that has been removed only assigns what does not matter, so nothing follows it. -/
theorem execute_dead_follows {I : Interpretation V} {body rest : List Instruction}
    {op : Operation} (last : TerminatorsLast (.operation op :: rest)) {state state' : State V}
    (here : state.rest = .operation op :: rest) (trails : Trails body state state')
    (dead : op.isDead (usedNames body) rest = true)
    (unstuck : (I.execute body state op rest).status ≠ .stuck)
    : Follows body (I.execute body state op rest) (.running state') := by
  have agree := trails.env
  have removed := trails.rest
  rw [here] at agree removed
  rw [removeDead_operation last, if_pos dead] at removed
  rw [Interpretation.execute] at unstuck ⊢
  cases performed : I.perform op (op.args.map state.env) state.trace with
  | none => simp [performed, Execution.status] at unstuck
  | some result =>
      obtain ⟨value, shown, flow⟩ := result
      obtain ⟨rfl, rfl⟩ :=
        Interpretation.perform_of_isPure (Operation.isPure_of_isDead dead) performed
      exact .running {
        suffix := (List.suffix_cons _ _).trans (here ▸ trails.suffix)
        block := trails.block
        rest := removed
        env := agree.drop dead value
        trace := trails.trace
      }

/-- An operation that has been kept is followed by itself, wherever control goes after it. -/
theorem execute_kept_follows {I : Interpretation V} {body rest : List Instruction}
    {op : Operation} (good : Removable body) (last : TerminatorsLast (.operation op :: rest))
    {state state' : State V} (here : state.rest = .operation op :: rest)
    (trails : Trails body state state')
    (unstuck : (I.execute body state op rest).status ≠ .stuck)
    : Follows body (I.execute body state op rest)
        (I.execute (removalRound body) state' op (removeDead (usedNames body) false rest)) := by
  have agree := trails.env
  rw [here] at agree
  have tail : rest <:+ body := (List.suffix_cons _ _).trans (here ▸ trails.suffix)
  have member : .operation op ∈ body := (here ▸ trails.suffix).subset List.mem_cons_self
  have values : op.args.map state'.env = op.args.map state.env :=
    List.map_congr_left fun var arg =>
      (agree var (matters_of_arg (contains_usedNames.mpr ⟨_, member, arg⟩) arg)).symm
  rw [Interpretation.execute] at unstuck ⊢
  rw [Interpretation.execute, values, ← trails.trace]
  cases performed : I.perform op (op.args.map state.env) state.trace with
  | none => simp [performed, Execution.status] at unstuck
  | some result =>
      obtain ⟨value, shown, flow⟩ := result
      simp only [performed] at unstuck ⊢
      have after := agree.keep value
      cases flow with
      | leave => exact .finished shown
      | next =>
          exact .running {
            suffix := tail
            block := trails.block
            rest := .inl rfl
            env := after
            trace := rfl
          }
      | goto label =>
          -- what follows a branch starts a block, so everything used matters there
          have starts := last.1 (Interpretation.isTerminator_of_goto performed)
          have split : afterLabel? label (removalRound body)
              = (afterLabel? label body).map (removeDead (usedNames body) false) :=
            afterLabel?_removeDead good.terminatorsLast
          cases found : afterLabel? label body with
          | none => simp [found, Execution.status] at unstuck
          | some next =>
              simp only [found, split, Option.map_some] at unstuck ⊢
              have target := suffix_of_afterLabel? found
              refine enterBlock_follows good.terminatorsLast
                ((List.suffix_cons _ _).trans target) (good.phisLead.of_suffix target)
                (fun on => by rw [trails.block on]) (fun var known => ?_) unstuck
              exact after var (matters_of_startsBlock starts known)

/-- A step of the original is followed by a step of the shortened function or, where the original
executes what was removed or passes a label that is still in front, by none.
-/
theorem step_follows {I : Interpretation V} {body : List Instruction} (good : Removable body)
    {state state' : State V} (trails : Trails body state state')
    (unstuck : (I.step body state).status ≠ .stuck)
    : Follows body (I.step body state) (.running state')
      ∨ Follows body (I.step body state) (I.step (removalRound body) state') := by
  have last := good.terminatorsLast.of_suffix trails.suffix
  have removed := trails.rest
  cases here : state.rest with
  | nil =>
      rw [here] at removed
      rcases removed with same | ⟨-, label, shape⟩
      · rw [Interpretation.step, here, Interpretation.step, ← same, trails.trace]
        exact .inr (.finished _)
      · simp [removeDead] at shape
  | cons instruction rest =>
      rw [here] at last removed
      cases instruction with
      | label name =>
          rw [Interpretation.step, here] at unstuck ⊢
          obtain ⟨block, _, env, trace⟩ := state
          simp only at here
          subst here
          exact step_label_follows good trails unstuck
      | operation op =>
          rw [Interpretation.step, here] at unstuck ⊢
          by_cases dead : op.isDead (usedNames body) rest = true
          · exact .inl (execute_dead_follows last here trails dead unstuck)
          · rw [removeDead_operation last, if_neg dead] at removed
            rcases removed with same | ⟨-, label, shape⟩
            · rw [Interpretation.step, ← same]
              exact .inr (execute_kept_follows good last here trails unstuck)
            · simp at shape

end ThreeAddress
