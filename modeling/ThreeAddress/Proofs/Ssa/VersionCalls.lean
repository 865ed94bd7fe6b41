import Mathlib.Data.Nat.SuccPred
import ThreeAddress.Proofs.Ssa.Versions

/-! Calls on versions in any order. No name is given twice, and the version in scope is the newest
one that has not been popped.
-/

namespace ThreeAddress

/-- A call on the versions of variables. -/
inductive VersionCall where
  /-- Creates the next version of a variable. -/
  | fresh (var : String)
  /-- Asks for the newest version of a variable in scope. -/
  | current (var : String)
  /-- Takes the newest version of a variable out of scope. -/
  | pop (var : String)
deriving DecidableEq

variable {calls : List VersionCall} {var : String} {i : Nat}

namespace Versions

/-- The versions after a call. -/
def call (versions : Versions) : VersionCall → Versions
  | .fresh var => (versions.fresh var).2
  | .current _ => versions
  | .pop var => versions.pop var

/-- The versions after some calls. -/
def after (versions : Versions) (calls : List VersionCall) : Versions :=
  calls.foldl call versions

/-- Calls are made up to a position, at it, and behind it. -/
theorem after_eq {here : VersionCall} (found : calls[i]? = some here) (versions : Versions)
    : versions.after calls
      = ((versions.after (calls.take i)).call here).after (calls.drop (i + 1)) := by
  obtain ⟨inside, rfl⟩ := List.getElem?_eq_some_iff.mp found
  conv_lhs => rw [← List.take_append_drop i calls, List.drop_eq_getElem_cons inside]
  rw [after, List.foldl_append]
  rfl

/-- A counter tells how often its variable got a version, by induction on the calls. -/
theorem count_after (versions : Versions) (calls : List VersionCall) (var : String)
    : (versions.after calls).count var = versions.count var + calls.count (.fresh var) := by
  induction calls generalizing versions with
  | nil => rfl
  | cons first rest ih =>
      rw [after, List.foldl_cons, ← after, ih, List.count_cons]
      cases first with
      | fresh other =>
          rw [call, count_fresh]
          by_cases same : other = var
          · subst same
            simp
            omega
          · simp [same]
      | current other => simp [call]
      | pop other => simp [call]

end Versions

-----------------------------------------------------------------------------------------
-- Names
-----------------------------------------------------------------------------------------

/-- The call at a position creates a version of a variable, and returns its name. -/
def Creates (calls : List VersionCall) (i : Nat) (var name : String) : Prop :=
  calls[i]? = some (.fresh var) ∧ ((Versions.empty.after (calls.take i)).fresh var).1 = name

/-- The number in a name counts the versions of the variable that have been created before. -/
theorem Creates.name_eq {name : String} (creates : Creates calls i var name)
    : name = versionName var ((calls.take i).count (.fresh var)) := by
  obtain ⟨-, rfl⟩ := creates
  have number := Versions.empty.count_after (calls.take i) var
  rw [Versions.count_empty, Nat.zero_add] at number
  rw [← number]
  rfl

/-- A version that is created later has another name: if it is of the same variable, that counts one
more.
-/
theorem Creates.ne_of_lt {j : Nat} {v w name name' : String} (first : Creates calls i v name)
    (second : Creates calls j w name') (before : i < j)
    : name ≠ name' := by
  rw [first.name_eq, second.name_eq]
  intro same
  obtain ⟨rfl, number⟩ := versionName_inj same
  have counted : (calls.take (i + 1)).count (.fresh v) = (calls.take i).count (.fresh v) + 1 := by
    rw [List.take_add_one, first.1, List.count_append]
    simp
  have more : (calls.take (i + 1)).count (.fresh v) ≤ (calls.take j).count (.fresh v) :=
    (List.take_prefix_take_left before).sublist.count_le _
  omega

/-- No name is returned twice. -/
theorem Creates.position_unique {j : Nat} {v w name : String} (first : Creates calls i v name)
    (second : Creates calls j w name)
    : i = j := by
  rcases Nat.lt_trichotomy i j with before | same | behind
  · exact absurd rfl (first.ne_of_lt second before)
  · exact same
  · exact absurd rfl (second.ne_of_lt first behind)

-----------------------------------------------------------------------------------------
-- Scopes
-----------------------------------------------------------------------------------------

/-- The call at a position creates a version of a variable that no later call pops. Since a call
pops the newest version in scope, these are the versions since whose creation the variable has at no
time been popped more often than it got further versions.
-/
structure Unpopped (calls : List VersionCall) (var : String) (i : Nat) : Prop where
  created : calls[i]? = some (.fresh var)
  spared : ∀ n, ((calls.drop (i + 1)).take n).count (.pop var)
    ≤ ((calls.drop (i + 1)).take n).count (.fresh var)

/-- How many of the versions of a variable that are in scope before some calls are popped by them,
if there are as many.
-/
def excessPops (var : String) : List VersionCall → Nat
  | [] => 0
  | .fresh other :: rest =>
    if other = var then excessPops var rest - 1 else excessPops var rest
  | .current _ :: rest => excessPops var rest
  | .pop other :: rest =>
    if other = var then excessPops var rest + 1 else excessPops var rest

/-- The excess is the most by which pops are ahead of creations at any time, by induction on the
calls.
-/
theorem excessPops_le_iff (var : String) (calls : List VersionCall) (bound : Nat)
    : excessPops var calls ≤ bound
      ↔ ∀ n, (calls.take n).count (.pop var) ≤ (calls.take n).count (.fresh var) + bound := by
  induction calls generalizing bound with
  | nil => simp [excessPops]
  | cons first rest ih =>
      rw [← Nat.and_forall_add_one]
      simp only [List.take_zero, List.count_nil, List.take_succ_cons, List.count_cons]
      cases first with
      | fresh other =>
          rw [excessPops]
          split
          · next same =>
              subst same
              have shift (pops creations : Nat)
                  : pops ≤ creations + 1 + bound ↔ pops ≤ creations + (bound + 1) := by omega
              simp [ih, shift]
          · next different => simp [ih, different]
      | current other => simp [excessPops, ih]
      | pop other =>
          rw [excessPops]
          split
          · next same =>
              subst same
              cases bound with
              | zero =>
                  refine iff_of_false (Nat.not_succ_le_zero _) fun all => ?_
                  simpa using all.2 0
              | succ bound =>
                  have shift (pops creations : Nat)
                      : pops + 1 ≤ creations + (bound + 1) ↔ pops ≤ creations + bound := by omega
                  simp [ih, shift]
          · next different => simp [ih, different]

/-- A version is popped unless the calls behind its creation have no excess. -/
theorem unpopped_iff
    : Unpopped calls var i
      ↔ calls[i]? = some (.fresh var) ∧ excessPops var (calls.drop (i + 1)) = 0 := by
  rw [← Nat.le_zero, excessPops_le_iff]
  exact ⟨fun ⟨created, spared⟩ => ⟨created, spared⟩, fun ⟨created, spared⟩ => ⟨created, spared⟩⟩

instance (calls : List VersionCall) (var : String) (i : Nat) : Decidable (Unpopped calls var i) :=
  decidable_of_iff _ unpopped_iff.symm

theorem Unpopped.lt_length (unpopped : Unpopped calls var i) : i < calls.length :=
  (List.getElem?_eq_some_iff.mp unpopped.created).1

/-- A version that is created behind some calls is unpopped among all. -/
theorem Unpopped.of_drop {k : Nat} (unpopped : Unpopped (calls.drop k) var i)
    : Unpopped calls var (k + i) := by
  obtain ⟨created, spared⟩ := unpopped
  rw [List.getElem?_drop] at created
  rw [List.drop_drop] at spared
  exact ⟨created, spared⟩

namespace Versions

/-- Calls that pop all versions created among them take only their excess off the stack, by
induction on the calls.
-/
theorem stack_after (versions : Versions) (none : ∀ i, ¬ Unpopped calls var i)
    : (versions.after calls).stack var = (versions.stack var).drop (excessPops var calls) := by
  induction calls generalizing versions with
  | nil => rfl
  | cons first rest ih =>
      have noneLater : ∀ i, ¬ Unpopped rest var i := fun i later =>
        none (1 + i) (show Unpopped ((first :: rest).drop 1) var i from later).of_drop
      rw [after, List.foldl_cons, ← after, ih (versions.call first) noneLater]
      cases first with
      | fresh other =>
          rw [call, stack_fresh, excessPops]
          split
          · next same =>
              subst same
              have popped : excessPops other rest ≠ 0 := fun zero =>
                none 0 (unpopped_iff.mpr ⟨rfl, zero⟩)
              obtain ⟨more, eq⟩ := Nat.exists_eq_succ_of_ne_zero popped
              rw [eq, List.drop_succ_cons, Nat.succ_sub_one]
          · rfl
      | current other => rfl
      | pop other =>
          rw [call, stack_pop, excessPops]
          split
          · next same =>
              subst same
              rw [List.drop_tail]
          · rfl

/-- The last version that is not popped is on top of its stack. -/
theorem stack_after_of_isGreatest (last : IsGreatest {i | Unpopped calls var i} i)
    : ∃ name older, Creates calls i var name ∧ (empty.after calls).stack var = name :: older := by
  obtain ⟨created, noExcess⟩ := unpopped_iff.mp last.1
  have noneLater : ∀ j, ¬ Unpopped (calls.drop (i + 1)) var j := by
    intro j later
    have early := last.2 later.of_drop
    omega
  refine ⟨_, (empty.after (calls.take i)).stack var, ⟨created, rfl⟩, ?_⟩
  rw [after_eq created, stack_after _ noneLater, noExcess, List.drop_zero, call, stack_fresh,
    if_pos rfl]
  rfl

/-- Some version of a variable has not been popped, and so there is a last one, or all have been and
the stack is empty.
-/
theorem exists_isGreatest_unpopped (calls : List VersionCall) (var : String)
    : (∃ i, IsGreatest {i | Unpopped calls var i} i)
      ∨ (∀ i, ¬ Unpopped calls var i) ∧ (empty.after calls).stack var = [] := by
  by_cases any : ∃ i, Unpopped calls var i
  · refine .inl (BddAbove.exists_isGreatest_of_nonempty ⟨calls.length, ?_⟩ any)
    intro i unpopped
    exact unpopped.lt_length.le
  · have none : ∀ i, ¬ Unpopped calls var i := not_exists.mp any
    refine .inr ⟨none, ?_⟩
    rw [stack_after empty none, stack_empty, List.drop_nil]

/-- Names of versions do not repeat, and scopes are stacks, whatever calls are made on whatever
variables. No two calls return the same name for a new version. After all calls the version of a
variable in scope is the last one created that has not been popped, and there is none exactly where
all have been.
-/
theorem fresh_distinct_and_current_newest (calls : List VersionCall)
    : (∀ i j v w name, Creates calls i v name → Creates calls j w name → i = j)
      ∧ ∀ var,
        (∀ name, (empty.after calls).current? var = some name
            ↔ ∃ i, IsGreatest {i | Unpopped calls var i} i ∧ Creates calls i var name)
          ∧ ((empty.after calls).current? var = none ↔ (empty.after calls).stack var = [])
          ∧ ((empty.after calls).stack var = [] ↔ ∀ i, ¬ Unpopped calls var i) := by
  refine ⟨fun i j v w name => Creates.position_unique, fun var => ⟨fun name => ?current,
    List.head?_eq_none_iff, ?none⟩⟩
  case current =>
    constructor
    · intro top
      rcases exists_isGreatest_unpopped calls var with ⟨i, last⟩ | ⟨-, none⟩
      · obtain ⟨newest, older, creates, stack⟩ := stack_after_of_isGreatest last
        obtain rfl : newest = name := by simpa [current?, stack] using top
        exact ⟨i, last, creates⟩
      · simp [current?, none] at top
    · rintro ⟨i, last, creates⟩
      obtain ⟨newest, older, creates', stack⟩ := stack_after_of_isGreatest last
      rw [current?, stack, List.head?_cons, ← creates'.2, creates.2]
  case none =>
    rcases exists_isGreatest_unpopped calls var with ⟨i, last⟩ | ⟨none, empty⟩
    · obtain ⟨newest, older, -, stack⟩ := stack_after_of_isGreatest last
      exact iff_of_false (by simp [stack]) fun none => none i last.1
    · exact iff_of_true empty none

end Versions

/-- Calls on two variables of which one is spelled like a version of the other. -/
def callsOnLookalikes : List VersionCall :=
  [.fresh "x", .fresh "x.0", .fresh "x", .pop "x", .current "x", .pop "x.0", .pop "x.0"]

/-- The version of `x.0` is not named like the first one of `x`, which is in scope again after the
second one has been popped. Popping `x.0` once too often changes nothing.
-/
theorem Versions.fresh_distinct_and_current_newest_lookalikes
    : Creates callsOnLookalikes 0 "x" "x.0" ∧ Creates callsOnLookalikes 2 "x" "x.1"
      ∧ ¬ Creates callsOnLookalikes 1 "x.0" "x.0"
      ∧ (empty.after callsOnLookalikes).current? "x" = some "x.0"
      ∧ (empty.after callsOnLookalikes).current? "x.0" = none := by
  obtain ⟨unique, scopes⟩ := fresh_distinct_and_current_newest callsOnLookalikes
  have first : Creates callsOnLookalikes 0 "x" "x.0" := ⟨rfl, rfl⟩
  have second : Creates callsOnLookalikes 2 "x" "x.1" := ⟨rfl, rfl⟩
  have last : IsGreatest {i | Unpopped callsOnLookalikes "x" i} 0 := by
    have only : ∀ i < callsOnLookalikes.length, Unpopped callsOnLookalikes "x" i → i ≤ 0 := by
      decide
    exact ⟨(by decide : Unpopped callsOnLookalikes "x" 0),
      fun i unpopped => only i unpopped.lt_length unpopped⟩
  have none : ∀ i, ¬ Unpopped callsOnLookalikes "x.0" i := by
    have popped : ∀ i < callsOnLookalikes.length, ¬ Unpopped callsOnLookalikes "x.0" i := by decide
    exact fun i unpopped => popped i unpopped.lt_length unpopped
  refine ⟨first, second, fun again => ?_, ((scopes "x").1 _).mpr ⟨0, last, first⟩, ?_⟩
  · exact absurd (unique 0 1 _ _ _ first again) (by decide)
  · exact (scopes "x.0").2.1.mpr ((scopes "x.0").2.2.mpr none)

end ThreeAddress
