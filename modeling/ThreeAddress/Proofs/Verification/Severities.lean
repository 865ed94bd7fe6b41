import ThreeAddress.Verification.Verifier

/-! Everything that a verification finds is an error, but for the remark that a block is not
reachable.
-/

namespace ThreeAddress.Subject

variable (s : Subject) (b : s.cfg.Block) (index : Nat) (op : Operation)

theorem isError_redefinition (first again : SiteDef s.cfg)
    : (s.redefinition first again).isError = true := by
  unfold redefinition
  split <;> rfl

theorem all_isError_redefinitions (earlier sites : List (SiteDef s.cfg))
    : (s.redefinitions earlier sites).all Diagnostic.isError = true := by
  induction sites generalizing earlier with
  | nil => rfl
  | cons d rest ih =>
      rw [redefinitions, List.all_append, ih, Bool.and_true]
      cases earlier.find? fun e => e.var == d.var with
      | none => rfl
      | some first => simp [s.isError_redefinition first d]

-----------------------------------------------------------------------------------------
-- Phis
-----------------------------------------------------------------------------------------

theorem all_isError_slotFindings (arg label : String)
    : (s.slotFindings b index op arg label).all Diagnostic.isError = true := by
  have types (d : SiteDef s.cfg)
      : (s.typeMismatch b index op arg label d).all Diagnostic.isError = true := by
    unfold typeMismatch
    split
    · split <;> rfl
    · rfl
  have edge (d : SiteDef s.cfg) (pred : s.cfg.Block)
      : (s.unavailable b index op arg label d pred).all Diagnostic.isError = true := by
    unfold unavailable
    split <;> rfl
  unfold slotFindings
  cases s.predNamed? b label with
  | none => rfl
  | some pred =>
      dsimp only
      split
      · rfl
      · cases s.siteOf? arg with
        | none => rfl
        | some d =>
            dsimp only
            rw [List.all_append, types, edge]
            rfl

theorem all_isError_slotsFindings (seen : List String) (slots : List (String × String))
    : (s.slotsFindings b index op seen slots).all Diagnostic.isError = true := by
  induction slots generalizing seen with
  | nil => rfl
  | cons slot rest ih =>
      rw [slotsFindings]
      split
      · exact ih seen
      · rw [List.all_append, s.all_isError_slotFindings, ih]
        rfl

theorem all_isError_phiFindings (afterOther : Bool)
    : (s.phiFindings b index op afterOther).all Diagnostic.isError = true := by
  have count : (s.slotCount b index op).all Diagnostic.isError = true := by
    dsimp only [slotCount]
    split <;> rfl
  rw [phiFindings, List.all_append, Bool.and_eq_true]
  constructor
  · split <;> rfl
  · split
    · rfl
    · rw [List.all_append, count, s.all_isError_slotsFindings]
      rfl

theorem all_isError_phisFindings (afterOther : Bool) (ops : List (Operation × Nat))
    : (s.phisFindings b afterOther ops).all Diagnostic.isError = true := by
  induction ops generalizing afterOther with
  | nil => rfl
  | cons x rest ih =>
      rw [phisFindings]
      split
      · rw [List.all_append, s.all_isError_phiFindings, ih]
        rfl
      · exact ih true

-----------------------------------------------------------------------------------------
-- Uses
-----------------------------------------------------------------------------------------

theorem all_isError_useFindings (arg : String)
    : (s.useFindings b index op arg).all Diagnostic.isError = true := by
  have order (d : SiteDef s.cfg)
      : (s.orderFindings b index op arg d).all Diagnostic.isError = true := by
    unfold orderFindings
    split
    · rfl
    · split
      · split <;> rfl
      · split <;> rfl
  unfold useFindings
  split
  · rfl
  · split
    · exact order _
    · rfl

theorem all_isError_usesFindings : (s.usesFindings b).all Diagnostic.isError = true := by
  rw [usesFindings, List.all_flatMap, List.all_eq_true]
  intro (op, index) _
  dsimp only
  split
  · rfl
  · rw [List.all_flatMap, List.all_eq_true]
    exact fun arg _ => s.all_isError_useFindings b index op arg

/-- What is found is an error, or the remark on a block that is not reachable. -/
theorem isError_or_unreachable {d : Diagnostic} (found : d ∈ s.findings)
    : d.isError = true ∨ d.code = .unreachableBlock ∧ ∃ b, s.tree.isReachable b = false := by
  rw [findings, List.mem_append, List.mem_flatMap] at found
  rcases found with again | ⟨b, -, inBlock⟩
  · exact .inl (List.all_eq_true.mp (s.all_isError_redefinitions _ _) d again)
  · rw [blockFindings, List.mem_append, List.mem_append] at inBlock
    rcases inBlock with (remark | phi) | use
    · cases reached : s.tree.isReachable b with
      | true => simp [reached] at remark
      | false =>
          simp only [reached, Bool.false_eq_true, if_false, List.mem_singleton] at remark
          exact .inr ⟨remark ▸ rfl, b, reached⟩
    · exact .inl (List.all_eq_true.mp (s.all_isError_phisFindings b _ _) d phi)
    · exact .inl (List.all_eq_true.mp (s.all_isError_usesFindings b) d use)

/-- In a function without unreachable blocks everything found is an error. -/
theorem isError_of_mem_findings (reached : ∀ b, s.tree.isReachable b = true) {d : Diagnostic}
    (found : d ∈ s.findings)
    : d.isError = true :=
  (s.isError_or_unreachable found).resolve_right fun remark => by
    obtain ⟨-, b, missed⟩ := remark
    simp [reached b] at missed

end ThreeAddress.Subject
