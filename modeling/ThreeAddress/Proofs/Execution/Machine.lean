import ThreeAddress.Proofs.ControlFlow.Blocks

/-! Execution of a function, one instruction after another, on its flat body.

What operations compute is left to an interpretation, so that statements about executions hold for
every choice of values, of arithmetic and of what calls return. A variable that nothing has been
assigned to has the undefined value.
-/

namespace ThreeAddress

/-- What an execution shows: what it prints, the calls it makes, the way its branches go and what it
returns.
-/
inductive Event (V : Type) where
  | print (args : List V)
  | call (funcs : List String) (args : List V)
  | branch (taken : Bool)
  | ret (args : List V)

/-- What an execution has shown, from first to last. -/
abbrev Trace (V : Type) := List (Event V)

/-- A meaning of operations over some values. -/
structure Interpretation (V : Type) where
  /-- The value of a variable without one. -/
  undef : V
  /-- What an operation computes from its declared type, its literal and its arguments; nothing if
  it is stuck.
  -/
  compute : Opcode → Option Ty → Option Literal → List V → Option V
  /-- Whether a branch on some arguments is taken; nothing if it is stuck. -/
  decide : List V → Option Bool
  /-- What a call returns, given everything shown so far, the call included. -/
  answer : Trace V → V

/-- The value of every variable. -/
abbrev Env (V : Type) := String → V

/-- Where control goes after an operation. -/
inductive Flow where
  | next
  | goto (label : String)
  | leave

/-- An execution between two instructions. -/
structure State (V : Type) where
  /-- The label of the block that control is in. -/
  block : String
  /-- The instructions from here to the end of the body. -/
  rest : List Instruction
  env : Env V
  trace : Trace V

/-- An execution at some point: under way, at its end, or stuck. -/
inductive Execution (V : Type) where
  | running (state : State V)
  | finished (trace : Trace V)
  | stuck (trace : Trace V)

/-- How an execution stands, apart from what it has shown. -/
inductive Status where
  | running
  | finished
  | stuck
deriving DecidableEq

namespace Execution

variable {V : Type}

/-- What an execution has shown. -/
def trace : Execution V → Trace V
  | running state => state.trace
  | finished trace => trace
  | stuck trace => trace

/-- How an execution stands. -/
def status : Execution V → Status
  | running _ => .running
  | finished _ => .finished
  | stuck _ => .stuck

end Execution

namespace Env

variable {V : Type}

/-- Gives a value to a destination, if there is one. -/
def assign (env : Env V) (dest : Option String) (value : V) : Env V :=
  fun var => if dest = some var then value else env var

/-- Gives values to destinations from first to last. -/
def assignAll (env : Env V) : List (Option String) → List V → Env V
  | dest :: dests, value :: values => (env.assign dest value).assignAll dests values
  | _, _ => env

/-- Gives arguments to parameters from first to last. A parameter without an argument is undefined.
-/
def bindParams (undef : V) (env : Env V) : List Param → List V → Env V
  | [], _ => env
  | param :: params, args =>
    bindParams undef (env.assign param.name (args.headD undef)) params args.tail

/-- The value of a phi when control comes from a block: that of the argument in the slot with the
label of the block. A phi without such a slot has no value.
-/
def phiValue? (env : Env V) (source : Option String) (phi : Operation) : Option V :=
  (phi.slots.find? fun slot => some slot.2 == source).map fun slot => env slot.1

end Env

/-- The phis at the top of a block. -/
def leadingPhis : List Instruction → List Operation
  | .operation op :: rest => if op.isPhi then op :: leadingPhis rest else []
  | _ => []

/-- What follows the phis at the top of a block. -/
def afterPhis : List Instruction → List Instruction
  | .operation op :: rest => if op.isPhi then afterPhis rest else .operation op :: rest
  | rest => rest

/-- What follows a label in a body that declares it. -/
def afterLabel? (label : String) : List Instruction → Option (List Instruction)
  | [] => none
  | .label name :: rest => if name = label then some rest else afterLabel? label rest
  | .operation _ :: rest => afterLabel? label rest

variable {V : Type}

/-- Enters a block. Its phis get their values all at once, from the block control comes from. -/
def enterBlock (source : Option String) (label : String) (rest : List Instruction) (env : Env V)
    (trace : Trace V)
    : Execution V :=
  match (leadingPhis rest).mapM (env.phiValue? source) with
  | some values =>
    .running
      { block := label
        rest := afterPhis rest
        env := env.assignAll ((leadingPhis rest).map (·.dest)) values
        trace }
  | none => .stuck trace

namespace Interpretation

/-- Performs an operation on the values of its arguments: its own value, what has been shown after
it and where control goes. A phi that is not at the top of its block is stuck, and so is a branch
without the right number of labels.
-/
def perform (I : Interpretation V) (op : Operation) (values : List V) (trace : Trace V)
    : Option (V × Trace V × Flow) :=
  match op.opcode, op.labels with
  | .phi, _ => none
  | .call, _ =>
    let trace := trace ++ [.call op.funcs values]
    some (I.answer trace, trace, .next)
  | .jmp, [target] =>
    (I.compute .jmp op.ty op.value values).map fun value => (value, trace, .goto target)
  | .jmp, _ => none
  | .br, [ifFalse, ifTrue] =>
    (I.compute .br op.ty op.value values).bind fun value =>
      (I.decide values).map fun taken =>
        (value, trace ++ [.branch taken], .goto (if taken then ifTrue else ifFalse))
  | .br, _ => none
  | .ret, _ =>
    (I.compute .ret op.ty op.value values).map fun value => (value, trace ++ [.ret values], .leave)
  | .print, _ =>
    (I.compute .print op.ty op.value values).map fun value =>
      (value, trace ++ [.print values], .next)
  | code, _ => (I.compute code op.ty op.value values).map fun value => (value, trace, .next)

/-- Executes one operation. Whatever it does, its value goes to its destination. A branch to a label
that the body does not declare is stuck.
-/
def execute (I : Interpretation V) (body : List Instruction) (state : State V) (op : Operation)
    (rest : List Instruction)
    : Execution V :=
  match I.perform op (op.args.map state.env) state.trace with
  | none => .stuck state.trace
  | some (value, trace, flow) =>
    let env := state.env.assign op.dest value
    match flow with
    | .next => .running { state with rest, env, trace }
    | .leave => .finished trace
    | .goto label =>
      match afterLabel? label body with
      | some rest => enterBlock (some state.block) label rest env trace
      | none => .stuck trace

/-- Executes one instruction. Running into a label enters the block it starts, and running off the
end finishes.
-/
def step (I : Interpretation V) (body : List Instruction) (state : State V) : Execution V :=
  match state.rest with
  | [] => .finished state.trace
  | .label name :: rest => enterBlock (some state.block) name rest state.env state.trace
  | .operation op :: rest => I.execute body state op rest

/-- Executes one instruction if the execution is under way. -/
def advance (I : Interpretation V) (body : List Instruction) : Execution V → Execution V
  | .running state => I.step body state
  | done => done

end Interpretation

namespace Function

/-- Calls a function with some arguments: its parameters get their values, and control enters its
entry block from nowhere. An entry block that is added in front of the body only has its label
there, where branches do not look: a branch to the label of an added entry is stuck.
-/
def start (f : Function) (I : Interpretation V) (args : List V) : Execution V :=
  match f.entryBody with
  | .label name :: rest =>
    enterBlock none name rest (Env.bindParams I.undef (fun _ => I.undef) f.params args) []
  | _ => .stuck []

/-- A call of a function after some number of steps. Branches go to labels that the body itself
declares, so one to the label of an added entry block is stuck.
-/
def run (f : Function) (I : Interpretation V) (args : List V) : Nat → Execution V
  | 0 => f.start I args
  | n + 1 => I.advance f.body (f.run I args n)

end Function

-----------------------------------------------------------------------------------------
-- What single operations do
-----------------------------------------------------------------------------------------

namespace Interpretation

variable {I : Interpretation V} {op : Operation} {values : List V} {trace shown : Trace V}
  {value : V}

/-- A pure operation shows nothing and goes on. -/
theorem perform_of_isPure {flow : Flow} (pure : op.opcode.isPure = true)
    (performed : I.perform op values trace = some (value, shown, flow))
    : shown = trace ∧ flow = .next := by
  rw [perform] at performed
  split at performed <;>
    simp_all [Opcode.isPure, Opcode.isArithmetic, Opcode.isComparison, Opcode.isLogic]

/-- An operation that does not end its block goes on, and one that goes to a label names it. -/
theorem perform_flow {flow : Flow}
    (performed : I.perform op values trace = some (value, shown, flow))
    : (flow = .next → op.isTerminator = false)
      ∧ ∀ label, flow = .goto label → op.isTerminator = true ∧ label ∈ op.branchTargets := by
  unfold perform at performed
  split at performed <;>
    simp only [reduceCtorEq, Option.some.injEq, Prod.mk.injEq, Option.map_eq_some_iff,
      Option.bind_eq_some_iff] at performed
  all_goals
    grind [Operation.isTerminator, Opcode.isTerminator, Operation.branchTargets, Opcode.isBranch]

/-- Only an operation that ends its block goes to a label. -/
theorem isTerminator_of_goto {label : String}
    (performed : I.perform op values trace = some (value, shown, .goto label))
    : op.isTerminator = true :=
  ((perform_flow performed).2 label rfl).1

end Interpretation

-----------------------------------------------------------------------------------------
-- Assignments, labels and phis
-----------------------------------------------------------------------------------------

/-- Giving a variable the value it has changes nothing. -/
theorem Env.assign_self (env : Env V) (var : String)
    : env.assign (some var) (env var) = env := by
  funext other
  simp only [Env.assign, Option.some.injEq]
  split
  · next same => rw [same]
  · rfl

/-- Without a destination nothing is assigned. -/
theorem Env.assign_none (env : Env V) (value : V) : env.assign none value = env := by
  funext other
  exact if_neg nofun

/-- What follows a label is a piece of the body. -/
theorem suffix_of_afterLabel? {label : String} {rest body : List Instruction}
    (found : afterLabel? label body = some rest)
    : .label label :: rest <:+ body := by
  induction body with
  | nil => simp [afterLabel?] at found
  | cons instruction tail ih =>
      cases instruction with
      | label name =>
          rw [afterLabel?] at found
          split at found
          · next same =>
              obtain rfl := Option.some.inj found
              exact same ▸ List.suffix_refl _
          · exact (ih found).trans (List.suffix_cons _ _)
      | operation op => exact (ih found).trans (List.suffix_cons _ _)

/-- A block is the phis at its top and what follows them. -/
theorem leadingPhis_append_afterPhis (rest : List Instruction)
    : (leadingPhis rest).map .operation ++ afterPhis rest = rest := by
  induction rest with
  | nil => rfl
  | cons instruction rest ih =>
      cases instruction with
      | label name => rfl
      | operation op =>
          simp only [leadingPhis, afterPhis]
          split
          · exact congrArg (.operation op :: ·) ih
          · rfl

/-- What follows the phis is a piece of what they stand in front of. -/
theorem afterPhis_suffix (rest : List Instruction) : afterPhis rest <:+ rest :=
  ⟨_, leadingPhis_append_afterPhis rest⟩

/-- A phi at the top of a block is an operation of the body. -/
theorem mem_of_mem_leadingPhis {rest : List Instruction} {op : Operation}
    (member : op ∈ leadingPhis rest)
    : .operation op ∈ rest ∧ op.isPhi = true := by
  induction rest with
  | nil => simp [leadingPhis] at member
  | cons instruction rest ih =>
      cases instruction with
      | label name => simp [leadingPhis] at member
      | operation other =>
          rw [leadingPhis] at member
          split at member
          · next phi =>
              rcases List.mem_cons.mp member with rfl | member
              · exact ⟨by simp, phi⟩
              · exact ⟨List.mem_cons_of_mem _ (ih member).1, (ih member).2⟩
          · simp at member

/-- Integers with `0` for what is undefined. Literals, copies and sums are computed, a division is
stuck, and a branch is taken on more than two.
-/
def Interpretation.sums : Interpretation Int where
  undef := 0
  compute
    | .const, _, some (.int value), _ => some value.toInt
    | .id, _, _, values => some (values.headD 0)
    | .add, _, _, values => some (values.foldl (· + ·) 0)
    | .div, _, _, _ => none
    | _, _, _, _ => some 0
  decide values := some (values.any (· > 2))
  answer trace := trace.length

end ThreeAddress
