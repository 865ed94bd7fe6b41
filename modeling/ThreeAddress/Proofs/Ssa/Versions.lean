import Mathlib.Data.List.Basic
import ThreeAddress.Ssa.Versions

/-! Names of versions tell the variable and the number, and the stacks behave as stacks. -/

namespace ThreeAddress

/-- Different versions have different names: a number has no dot, so the last dot of the name ends
the variable.
-/
theorem versionName_inj {v w : String} {m n : Nat} (same : versionName v m = versionName w n)
    : v = w ∧ m = n := by
  -- Read backwards, the number comes first and ends at the first dot.
  have front (k : Nat) (rest : List Char)
      : ((Nat.toDigits 10 k).reverse ++ '.' :: rest).takeWhile (· != '.')
        = (Nat.toDigits 10 k).reverse := by
    rw [List.takeWhile_append_of_pos]
    · simp
    · intro c member
      have digit := Nat.isDigit_of_mem_toDigits (by decide) (by decide) (List.mem_reverse.mp member)
      rw [bne_iff_ne]
      intro dot
      exact absurd (dot ▸ digit) (by decide)
  have chars (u : String) (k : Nat)
      : (versionName u k).toList.reverse
        = (Nat.toDigits 10 k).reverse ++ '.' :: u.toList.reverse := by
    simp [versionName]
  have backwards : (versionName v m).toList.reverse = (versionName w n).toList.reverse := by
    rw [same]
  rw [chars, chars] at backwards
  have digits := congrArg (List.takeWhile (· != '.')) backwards
  rw [front, front, List.reverse_inj] at digits
  rw [digits, List.append_cancel_left_eq, List.cons.injEq, List.reverse_inj, String.toList_inj]
    at backwards
  refine ⟨backwards.2, ?_⟩
  calc
    m = Nat.ofDigitChars 10 (Nat.toDigits 10 m) 0 := Nat.ofDigitChars_ten_toDigits.symm
    _ = Nat.ofDigitChars 10 (Nat.toDigits 10 n) 0 := by rw [digits]
    _ = n := Nat.ofDigitChars_ten_toDigits

/-- A name without a dot is no version. -/
theorem ne_versionName_of_dotless {name : String} (dotless : '.' ∉ name.toList) (var : String)
    (number : Nat)
    : name ≠ versionName var number := by
  intro same
  apply dotless
  rw [same, versionName]
  simp

namespace Versions

variable {versions : Versions} {var : String}

@[simp] theorem stack_empty (var : String) : empty.stack var = [] := by
  simp [stack, empty]

@[simp] theorem count_empty (var : String) : empty.count var = 0 := by
  simp [count, empty]

theorem stack_fresh (versions : Versions) (var other : String)
    : (versions.fresh var).2.stack other
      = if var = other then versionName var (versions.count var) :: versions.stack var
        else versions.stack other := by
  simp [fresh, stack, Std.ExtTreeMap.getD_insert]

theorem count_fresh (versions : Versions) (var other : String)
    : (versions.fresh var).2.count other
      = if var = other then versions.count var + 1 else versions.count other := by
  simp [fresh, count, Std.ExtTreeMap.getD_insert]

theorem stack_pop (versions : Versions) (var other : String)
    : (versions.pop var).stack other
      = if var = other then (versions.stack var).tail else versions.stack other := by
  unfold pop
  match shape : versions.stack var with
  | [] => simp [stack, Std.ExtTreeMap.getD_erase]
  | [_] => simp [stack, Std.ExtTreeMap.getD_erase]
  | _ :: _ :: _ => simp [stack, Std.ExtTreeMap.getD_insert]

@[simp] theorem count_pop (versions : Versions) (var other : String)
    : (versions.pop var).count other = versions.count other :=
  rfl

/-- The versions in scope have been created, each for the variable it is in scope for. -/
def Coherent (versions : Versions) : Prop :=
  ∀ var, ∀ name ∈ versions.stack var,
    ∃ number < versions.count var, name = versionName var number

theorem coherent_empty : empty.Coherent := by
  intro var name member
  simp at member

/-- A version that comes into scope has just been created. -/
theorem Coherent.fresh (coherent : versions.Coherent) (var : String)
    : (versions.fresh var).2.Coherent := by
  intro other name member
  rw [stack_fresh] at member
  rw [count_fresh]
  split at member
  · next same =>
      subst same
      rw [if_pos rfl]
      rcases List.mem_cons.mp member with new | old
      · exact ⟨versions.count var, by omega, new⟩
      · obtain ⟨number, created, named⟩ := coherent var name old
        exact ⟨number, by omega, named⟩
  · next different =>
      rw [if_neg different]
      exact coherent other name member

/-- Taking versions out of scope takes as many from each stack as the variable is listed, by
induction on the list.
-/
theorem stack_foldl_pop (vars : List String) (versions : Versions) (other : String)
    : (vars.foldl pop versions).stack other = (versions.stack other).drop (vars.count other) := by
  induction vars generalizing versions with
  | nil => rfl
  | cons var rest ih =>
      rw [List.foldl_cons, ih, stack_pop, List.count_cons]
      by_cases same : var = other
      · subst same
        simp
      · simp [same]

@[simp] theorem count_foldl_pop (vars : List String) (versions : Versions) (other : String)
    : (vars.foldl pop versions).count other = versions.count other := by
  induction vars generalizing versions with
  | nil => rfl
  | cons var rest ih => rw [List.foldl_cons, ih, count_pop]

end Versions

end ThreeAddress
