import ThreeAddress.Verification.Report

/-! Reports up to a limit: what is collected is as much as fits of all that is found, in order. The
verdict on a part of the findings differs from that on all of them only if the part ends before the
first error.
-/

namespace ThreeAddress

/-- As much of a list as a limit allows; a limit of zero is no limit. -/
def capped {α : Type} (limit : Nat) (l : List α) : List α :=
  if limit = 0 then l else l.take limit

section capped

variable {α : Type} {limit : Nat} {l more : List α}

@[simp] theorem capped_zero : capped 0 l = l :=
  rfl

/-- What comes first counts only up to the limit. -/
theorem capped_capped_append
    : capped limit (capped limit l ++ more) = capped limit (l ++ more) := by
  unfold capped
  split
  · rfl
  · have room : limit - min limit l.length = limit - l.length := by omega
    rw [List.take_append, List.take_append, List.take_take, Nat.min_self, List.length_take, room]

/-- What follows counts only up to the limit. -/
theorem capped_append_capped
    : capped limit (l ++ capped limit more) = capped limit (l ++ more) := by
  unfold capped
  split
  · rfl
  · rw [List.take_append, List.take_append, List.take_take, Nat.min_eq_left (Nat.sub_le _ _)]

/-- Of each of several parts, only what the limit allows counts. By induction on the parts. -/
theorem capped_flatMap_capped {β : Type} (parts : List β) (content : β → List α)
    : capped limit (parts.flatMap fun part => capped limit (content part))
      = capped limit (parts.flatMap content) := by
  induction parts with
  | nil => rfl
  | cons part rest ih =>
      rw [List.flatMap_cons, List.flatMap_cons, capped_capped_append, ← capped_append_capped, ih,
        capped_append_capped]

/-- What follows does not count where the limit is reached. -/
theorem capped_append_of_le (limited : limit ≠ 0) (full : limit ≤ (capped limit l).length)
    : capped limit (l ++ more) = capped limit l := by
  simp only [capped, if_neg limited, List.length_take] at full ⊢
  exact List.take_append_of_le_length (Nat.le_trans full (Nat.min_le_right _ _))

/-- One more member fits where the limit is not reached. -/
theorem capped_concat_of_lt (room : limit = 0 ∨ (capped limit l).length < limit) (x : α)
    : capped limit (l ++ [x]) = capped limit l ++ [x] := by
  unfold capped at room ⊢
  split
  · rfl
  · next limited =>
      rw [if_neg limited, List.length_take] at room
      have short : l.length < limit := by omega
      have fits : (l ++ [x]).length ≤ limit := by
        rw [List.length_append]
        exact short
      rw [List.take_of_length_le fits, List.take_of_length_le (Nat.le_of_lt short)]

/-- Part of a list passes where the whole list does, or where the part ends before the first member
that fails. By induction on the list.
-/
theorem all_capped {p : α → Bool}
    : (capped limit l).all p = true
      ↔ l.all p = true ∨ 0 < limit ∧ limit ≤ (l.takeWhile p).length := by
  unfold capped
  split
  · next unlimited => simp [unlimited]
  · next limited =>
      simp only [Nat.pos_of_ne_zero limited, true_and]
      induction l generalizing limit with
      | nil => simp
      | cons x rest ih =>
          obtain ⟨room, rfl⟩ := Nat.exists_eq_succ_of_ne_zero limited
          cases passes : p x with
          | false => simp [passes]
          | true =>
              cases room with
              | zero => simp [passes]
              | succ room => simpa [passes] using ih (Nat.succ_ne_zero room)

end capped

namespace Report

variable {limit : Nat} {report : Report} {found : List Diagnostic}

/-- A report is full when it has collected as much as the limit allows. -/
theorem isFull_iff
    : report.isFull limit = true ↔ limit ≠ 0 ∧ limit ≤ report.diagnostics.length := by
  simp [isFull]

/-- One more finding is collected if it fits. -/
theorem diagnostics_push (sofar : report.diagnostics = capped limit found) (d : Diagnostic)
    : (report.push limit d).diagnostics = capped limit (found ++ [d]) := by
  unfold push
  split
  · next full =>
      obtain ⟨limited, reached⟩ := isFull_iff.mp full
      rw [sofar] at reached ⊢
      exact (capped_append_of_le limited reached).symm
  · next open_ =>
      have room : limit = 0 ∨ (capped limit found).length < limit := by
        rw [isFull_iff, sofar] at open_
        omega
      rw [sofar, capped_concat_of_lt room]

/-- More findings are collected as far as they fit, by induction on them. -/
theorem diagnostics_extend (sofar : report.diagnostics = capped limit found)
    (more : List Diagnostic)
    : (report.extend limit more).diagnostics = capped limit (found ++ more) := by
  induction more generalizing report found with
  | nil => rw [List.append_nil]; exact sofar
  | cons d rest ih =>
      have next := ih (diagnostics_push sofar d)
      rwa [List.append_assoc] at next

/-- Without a limit a report takes everything that is found. -/
theorem diagnostics_extend_zero (report : Report) (found : List Diagnostic)
    : (report.extend 0 found).diagnostics = report.diagnostics ++ found :=
  diagnostics_extend capped_zero.symm found

/-- Merging collects the findings of all reports as far as they fit, by induction on the reports:
those behind a report that fills the limit do not count.
-/
theorem diagnostics_merge (sofar : report.diagnostics = capped limit found) (reports : List Report)
    : (report.merge limit reports).diagnostics
      = capped limit (found ++ reports.flatMap Report.diagnostics) := by
  induction reports generalizing report found with
  | nil =>
      rw [List.flatMap_nil, List.append_nil]
      exact sofar
  | cons next rest ih =>
      have extended := diagnostics_extend sofar next.diagnostics
      rw [List.flatMap_cons, ← List.append_assoc, merge]
      split
      · next full =>
          obtain ⟨limited, reached⟩ := isFull_iff.mp full
          rw [extended] at reached ⊢
          exact (capped_append_of_le limited reached).symm
      · exact ih extended

/-- How many warnings stand in front of the first error. -/
def leadingWarnings (report : Report) : Nat :=
  (report.diagnostics.takeWhile fun d => !d.isError).length

/-- The verdict is good when no finding is an error. -/
theorem isOk_eq_all (report : Report)
    : report.isOk = report.diagnostics.all fun d => !d.isError := by
  rw [isOk, hasErrors, List.not_any_eq_all_not]

end Report

end ThreeAddress
