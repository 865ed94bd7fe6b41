import ThreeAddress.Proofs.Execution.Arithmetic
import ThreeAddress.Proofs.Simplify.Readings

/-! What a value table says of the values of variables. An operation that is numbered and simplified
computes what it did before, and the table is right behind it.
-/

namespace ThreeAddress

variable {F : Type} {floats : Floats F}

-----------------------------------------------------------------------------------------
-- Values of operations
-----------------------------------------------------------------------------------------

/-- Pure operations have the value they compute; integers and booleans equal themselves. -/
def Floats.reading (floats : Floats F) : Reading (Value F) where
  Performs code literal operands value := floats.compute? code literal operands = some value
  Scalar := Value.IsScalar

/-- A literal is what it stands for. -/
theorem Floats.reading_is {literal : Literal} {value : Value F}
    : floats.reading.Is literal value ↔ value = floats.ofLiteral literal := by
  change some (floats.ofLiteral literal) = some value ↔ _
  rw [Option.some.injEq, eq_comm]

/-- What is known of a value is that it is its literal. -/
theorem Floats.reading_known {constant : Option Literal} {value : Value F}
    : floats.reading.Known constant value ↔ floats.Known constant value := by
  simp only [Reading.Known, Floats.Known, reading_is]

/-- Numbering may rely on values, if floating point operations do not depend on the order of their
operands.
-/
theorem Floats.Symmetric.lawful (symmetric : floats.Symmetric) : floats.reading.Lawful where
  literal performs := performs
  literal_unique is is' :=
    (Floats.reading_is.mp is).trans (Floats.reading_is.mp is').symm
  copied performs := (Option.some.inj performs).symm
  copies _ := rfl
  bare other performs := (Floats.compute?_of_ne_const other _ _).symm.trans performs
  unique _ performs performs' := Option.some.inj (performs.symm.trans performs')
  reorders commutes perm performs :=
    (symmetric.compute?_perm commutes none perm).symm.trans performs
  folds known folded performs := by
    have known' := known.imp fun _ _ => Floats.reading_known.mp
    exact Floats.reading_is.mpr (Floats.eq_of_foldConstant known' folded performs)
  compares scalar folded performs :=
    Floats.reading_is.mpr (Floats.eq_of_foldSelfComparison scalar folded performs)

-----------------------------------------------------------------------------------------
-- Tables that are right about an environment
-----------------------------------------------------------------------------------------

namespace ValueTable

variable {table : ValueTable} {env : Env (Value F)}

/-- The table is right about an environment. -/
def Explains (floats : Floats F) (table : ValueTable) (env : Env (Value F)) : Prop :=
  floats.reading.Explains table env

/-- A table without entries is right about everything. -/
theorem explains_empty (floats : Floats F) (env : Env (Value F)) : empty.Explains floats env :=
  floats.reading.explains_empty env

/-- The table stays right when a phi gives a value to its destination. -/
theorem Explains.visit_phi (explains : table.Explains floats env) {op : Operation}
    (phi : op.isPhi = true) {value : Value F} (fits : value.Fits op.ty)
    : (table.visit op).2.Explains floats (env.assign op.dest value) :=
  Reading.Explains.visit_phi explains phi fits

/-- An operation with effects only reads other variables, which have the same values. -/
theorem Explains.visit_effect (explains : table.Explains floats env) {op : Operation}
    (impure : op.opcode.isPure = false)
    : ∃ args, (table.visit op).1 = { op with args } ∧ args.map env = op.args.map env :=
  Reading.Explains.visit_effect explains impure

/-- A simplified operation does what the operation did, and the table stays right. -/
theorem Explains.visit (explains : table.Explains floats env) (symmetric : floats.Symmetric)
    {effects : Interpretation (Value F)} {op : Operation} (ordinary : op.isPhi = false)
    {trace shown : Trace (Value F)} {value : Value F} {flow : Flow} (fits : value.Fits op.ty)
    (performed : (floats.interpretation effects).perform op (op.args.map env) trace
      = some (value, shown, flow))
    : (table.visit op).2.Explains floats (env.assign op.dest value)
      ∧ (floats.interpretation effects).perform (table.visit op).1 ((table.visit op).1.args.map env)
          trace = some (value, shown, flow) := by
  cases pure : op.opcode.isPure with
  | true =>
      rw [Floats.perform_of_isPure effects pure] at performed
      obtain ⟨result, computed, outcome⟩ := Option.map_eq_some_iff.mp performed
      obtain ⟨rfl, rfl, rfl⟩ := Prod.mk.inj outcome
      obtain ⟨after, performs⟩ :=
        Reading.Explains.visit explains symmetric.lawful ordinary fits fun _ => computed
      refine ⟨after, ?_⟩
      rw [Floats.perform_of_isPure effects ((table.visit_simplifies op).isPure_eq.trans pure)]
      exact Option.map_eq_some_iff.mpr ⟨_, performs pure, rfl⟩
  | false =>
      have computes (pure' : op.opcode.isPure = true)
          : floats.reading.Performs op.opcode op.value (op.args.map env) value := by
        simp [pure] at pure'
      obtain ⟨after, -⟩ := Reading.Explains.visit explains symmetric.lawful ordinary fits computes
      obtain ⟨args, same, read⟩ := explains.visit_effect pure
      refine ⟨after, ?_⟩
      rw [same, read]
      exact performed

end ValueTable

end ThreeAddress
