import ThreeAddress.Proofs.Json.Records
import ThreeAddress.Proofs.Json.Values

/-! Programs as text and back. A program that a text is read as fits the nesting that texts may
have, and what fits is written to texts that are read as it. Floating point literals are left
out here: they are rounded when they are read.
-/

namespace ThreeAddress

open Json (Carries)

-----------------------------------------------------------------------------------------
-- Types
-----------------------------------------------------------------------------------------

namespace Ty

/-- How many pointers a type has around its innermost type. -/
def depth : Ty → Nat
  | ptr pointee => pointee.depth + 1
  | _ => 0

theorem depth_of_ofName? {name : String} {ty : Ty} (read : ofName? name = some ty)
    : ty.depth = 0 := by
  unfold ofName? at read
  split at read <;> cases read <;> rfl

/-- A type that is read has at most as many pointers as there is room for. -/
theorem depth_le_of_ofJson? {room : Nat} {value : Json} {ty : Ty}
    (read : ofJson? room value = some ty)
    : ty.depth ≤ room := by
  induction room generalizing value ty with
  | zero =>
      unfold ofJson? at read
      split at read
      · obtain ⟨name, _, simple⟩ := Option.bind_eq_some_iff.mp read
        exact (depth_of_ofName? simple).le
      · contradiction
      · cases read
  | succ room ih =>
      unfold ofJson? at read
      split at read
      next =>
        obtain ⟨name, _, simple⟩ := Option.bind_eq_some_iff.mp read
        simp [depth_of_ofName? simple]
      next outer level name content same =>
        cases same
        split at read
        · obtain ⟨pointee, inner, rfl⟩ := Option.map_eq_some_iff.mp read
          exact Nat.succ_le_succ (ih inner)
        · split at read
          · simp [depth_of_ofName? read]
          · cases read
      next => cases read

/-- A type is written within the room that its pointers take. -/
theorem carries_toJson {room : Nat} {ty : Ty} (fits : ty.depth ≤ room)
    : Carries (ofJson? room) room ty.toJson ty := by
  induction ty generalizing room with
  | int | bool | float => exact ⟨rfl, by cases room <;> rfl⟩
  | ptr pointee ih =>
      cases room with
      | zero => cases fits
      | succ room =>
          obtain ⟨holds, reads⟩ := ih (Nat.le_of_succ_le_succ fits)
          refine ⟨Json.isHoldable_ofMembers.mpr (List.forall_mem_singleton.mpr holds), ?_⟩
          simp [toJson, Json.ofMembers, ofJson?, reads]

end Ty

-----------------------------------------------------------------------------------------
-- Literals and operation codes
-----------------------------------------------------------------------------------------

/-- A 64-bit integer is written as a literal that is in range. -/
theorem hasRange_toString (value : Int64) : Json.hasRange (toString value.toInt) := by
  have low := value.le_toInt
  have high := value.toInt_lt
  have fits : digitsValue (decimalDigits value.toInt.natAbs) ≤ Numeral.wordLimit := by
    have limit : Numeral.wordLimit = 2 ^ 64 - 1 := rfl
    rw [Numeral.digitsValue_decimalDigits]
    omega
  rw [Json.hasRange, Numeral.ofChars?_toString]
  exact Numeral.isSome_double? rfl rfl fits

/-- Booleans and integers are read back, integers as integers. -/
theorem Literal.carries_toJson {room : Nat} {literal : Literal}
    (noFloat : ∀ x, literal ≠ .float x)
    : Carries ofJson? room literal.toJson literal := by
  cases literal with
  | bool value => exact ⟨rfl, rfl⟩
  | float value => exact absurd rfl (noFloat value)
  | int value =>
      refine ⟨hasRange_toString value, ?_⟩
      have range : Int64.minValue.toInt ≤ value.toInt ∧ value.toInt ≤ Int64.maxValue.toInt :=
        ⟨value.minValue_le_toInt, value.toInt_le⟩
      simp only [toJson, Json.ofInt, ofJson?, Numeral.ofChars?_toString, Option.bind_some,
        ofNumeral?, Numeral.int?_ofInt, if_pos range, Int64.ofInt_toInt]

theorem Opcode.carries_toJson {room : Nat} (code : Opcode)
    : Carries (ofJson? room) room code.toJson code where
  holds := rfl
  reads := by cases code <;> rfl

-----------------------------------------------------------------------------------------
-- Operations
-----------------------------------------------------------------------------------------

namespace Operation

variable {room : Nat} {op : Operation}

/-- An operation is written with some of its fields: what is absent or empty is left out. -/
theorem exists_members (op : Operation)
    : ∃ members, op.toJson = Json.ofMembers members
      ∧ (members.map Prod.fst).Sublist fieldNames
      ∧ members.lookup "op" = some op.opcode.toJson
      ∧ members.lookup "dest" = op.dest.map Json.ofString
      ∧ members.lookup "type" = op.ty.map Ty.toJson
      ∧ members.lookup "args" = (if op.args.isEmpty then none else some (Json.ofStrings op.args))
      ∧ members.lookup "value" = op.value.map Literal.toJson
      ∧ members.lookup "labels"
        = (if op.labels.isEmpty then none else some (Json.ofStrings op.labels))
      ∧ members.lookup "funcs"
        = (if op.funcs.isEmpty then none else some (Json.ofStrings op.funcs)) := by
  refine ⟨_, rfl, ?_, ?_⟩
  · have parts : fieldNames
        = "op" :: (["dest"] ++ ["type"] ++ ["args"] ++ ["value"] ++ ["labels"] ++ ["funcs"]) := rfl
    simp only [parts, List.map_cons, List.map_append]
    exact .cons_cons _ (Json.optionMember_sublist.append Json.optionMember_sublist
      |>.append Json.listMember_sublist |>.append Json.optionMember_sublist
      |>.append Json.listMember_sublist |>.append Json.listMember_sublist)
  · simp [List.lookup_cons, List.lookup_append, Json.lookup_optionMember, Json.lookup_listMember]

/-- An operation without floating point literal is written so that it is read back, within two
levels more than its type takes.
-/
theorem carries_toJson (types : ∀ ty ∈ op.ty, ty.depth ≤ room + 1)
    (noFloat : ∀ x, op.value ≠ some (.float x))
    : Carries (ofJson? (room + 2)) (room + 2) op.toJson op := by
  have tyOf : ∀ ty ∈ op.ty, Carries (Ty.ofJson? (room + 1)) (room + 1) ty.toJson ty :=
    fun ty given => Ty.carries_toJson (types ty given)
  have literalOf : ∀ x ∈ op.value, Carries Literal.ofJson? (room + 1) x.toJson x :=
    fun literal given => Literal.carries_toJson fun x float => noFloat x (float ▸ given)
  constructor
  · refine Json.isHoldable_ofMembers.mpr (List.forall_mem_cons.mpr ⟨rfl, ?_⟩)
    simp only [List.forall_mem_append]
    exact ⟨⟨⟨⟨⟨Json.holds_optionMember fun _ _ => rfl,
      Json.holds_optionMember fun ty given => (tyOf ty given).holds⟩, Json.holds_listMember⟩,
      Json.holds_optionMember fun x given => (literalOf x given).holds⟩, Json.holds_listMember⟩,
      Json.holds_listMember⟩
  · obtain ⟨members, written, distinct, opcode, dest, ty, args, value, labels, funcs⟩ :=
      op.exists_members
    -- Names are written once each, so every field is looked up where it was written.
    let fields : Json.Fields := (members.lookup ·)
    have read : op.toJson.fields? fieldNames 1 (room + 2) = some fields :=
      written ▸ Json.fields?_ofMembers (distinct.nodup (by decide))
    have names (texts : List String) : names? (room + 1) (Json.ofStrings texts) = some texts :=
      (Json.carries_ofStrings texts).reads
    have readOpcode : fields.required "op" (Opcode.ofJson? (room + 1)) = some op.opcode :=
      Json.required_eq_some opcode op.opcode.carries_toJson.reads
    have readDest : fields.withDefault "dest" none (Json.nullable? Json.string?) = some op.dest :=
      Json.withDefault_nullable?_eq_some dest rfl fun _ _ => rfl
    have readTy : fields.withDefault "type" none (Json.nullable? (Ty.ofJson? (room + 1)))
        = some op.ty :=
      Json.withDefault_nullable?_eq_some ty rfl fun ty given => (tyOf ty given).reads
    have readValue : fields.withDefault "value" none (Json.nullable? Literal.ofJson?)
        = some op.value :=
      Json.withDefault_nullable?_eq_some value rfl fun x given => (literalOf x given).reads
    have readArgs : fields.withDefault "args" [] (names? (room + 1)) = some op.args :=
      Json.withDefault_eq_some args List.isEmpty_iff.mp (names op.args)
    have readLabels : fields.withDefault "labels" [] (names? (room + 1)) = some op.labels :=
      Json.withDefault_eq_some labels List.isEmpty_iff.mp (names op.labels)
    have readFuncs : fields.withDefault "funcs" [] (names? (room + 1)) = some op.funcs :=
      Json.withDefault_eq_some funcs List.isEmpty_iff.mp (names op.funcs)
    simp only [ofJson?, read, Nat.add_one_sub_one, readOpcode, readDest, readTy, readArgs,
      readValue, readLabels, readFuncs, Option.bind_eq_bind, Option.bind_some]

/-- An operation that is read declares a type that fits one level below it. -/
theorem depth_lt_of_ofJson? {value : Json} (read : ofJson? room value = some op)
    : ∀ ty ∈ op.ty, ty.depth < room := by
  simp only [ofJson?, Option.bind_eq_bind, Option.bind_eq_some_iff] at read
  obtain ⟨fields, record, opcode, _, dest, _, ty, types, args, _, literal, _, labels, _, funcs, _,
    ⟨⟩⟩ := read
  intro t given
  obtain ⟨content, inner⟩ := Json.of_withDefault_nullable? types t given
  have := Ty.depth_le_of_ofJson? inner
  have := Json.ne_zero_of_fields? record
  omega

end Operation

-----------------------------------------------------------------------------------------
-- Instructions and parameters
-----------------------------------------------------------------------------------------

namespace Instruction

variable {room : Nat}

/-- No operation is written with a label's member. -/
theorem labelOfJson?_toJson (op : Operation) : labelOfJson? op.toJson = none := by
  obtain ⟨members, written, names, _⟩ := op.exists_members
  have absent : (members.map (·.1)).count "label" = 0 :=
    List.count_eq_zero.mpr fun member => absurd (names.subset member) (by decide)
  simp only [written, Json.ofMembers, labelOfJson?, Json.memberCount_map, absent]
  rfl

theorem carries_toJson {instruction : Instruction}
    (types : ∀ op ∈ instruction.operation?, ∀ ty ∈ op.ty, ty.depth ≤ room + 1)
    (noFloat : ∀ op ∈ instruction.operation?, ∀ x, op.value ≠ some (.float x))
    : Carries (ofJson? (room + 2)) (room + 2) instruction.toJson instruction := by
  cases instruction with
  | label name => exact ⟨rfl, rfl⟩
  | operation op =>
      obtain ⟨holds, reads⟩ := Operation.carries_toJson (types op rfl) (noFloat op rfl)
      refine ⟨holds, ?_⟩
      -- What can be read as a label would be one, whatever else it holds.
      simp only [toJson, ofJson?, if_pos holds, labelOfJson?_toJson, reads, Option.map_some]

theorem depth_lt_of_ofJson? {value : Json} {instruction : Instruction}
    (read : ofJson? room value = some instruction)
    : ∀ op ∈ instruction.operation?, ∀ ty ∈ op.ty, ty.depth < room := by
  rintro op given
  unfold ofJson? at read
  split at read
  · split at read
    · cases read
      cases given
    · obtain ⟨op, content, ⟨⟩⟩ := Option.map_eq_some_iff.mp read
      cases given
      exact Operation.depth_lt_of_ofJson? content
  · cases read

end Instruction

namespace Param

variable {room : Nat} {param : Param}

theorem carries_toJson (fits : param.ty.depth ≤ room)
    : Carries (ofJson? (room + 1)) (room + 1) param.toJson param := by
  obtain ⟨holds, reads⟩ := Ty.carries_toJson fits
  constructor
  · exact Json.isHoldable_ofMembers.mpr (by simp [Json.ofString, Json.isHoldable, holds])
  · have record : param.toJson.fields? ["name", "type"] 2 (room + 1) = some _ :=
      Json.fields?_ofMembers (by simp)
    simp [ofJson?, record, Json.Fields.required, List.lookup_cons, Json.ofString, Json.string?,
      reads]

theorem depth_lt_of_ofJson? {value : Json} (read : ofJson? room value = some param)
    : param.ty.depth < room := by
  simp only [ofJson?, Option.bind_eq_bind, Option.bind_eq_some_iff] at read
  obtain ⟨fields, record, name, _, ty, types, ⟨⟩⟩ := read
  obtain ⟨content, inner⟩ := Json.exists_of_required types
  have := Ty.depth_le_of_ofJson? inner
  have := Json.ne_zero_of_fields? record
  show ty.depth < room
  omega

end Param

-----------------------------------------------------------------------------------------
-- Functions and programs
-----------------------------------------------------------------------------------------

/-- The types of a function fit the nesting around them: a parameter or an operation stands in a
list of the function, and the return type in the function itself.
-/
structure Function.Fits (room : Nat) (f : Function) : Prop where
  params : ∀ param ∈ f.params, param.ty.depth + 3 ≤ room
  returnType : ∀ ty ∈ f.returnType, ty.depth + 1 ≤ room
  operations : ∀ op ∈ f.operations, ∀ ty ∈ op.ty, ty.depth + 3 ≤ room

/-- No operation of the function carries a floating point literal. -/
def Function.FloatFree (f : Function) : Prop :=
  ∀ op ∈ f.operations, ∀ x, op.value ≠ some (.float x)

/-- The functions of a program stand in a list of the program. -/
def Program.Fits (program : Program) : Prop :=
  ∀ f ∈ program.functions, f.Fits (Json.maxDepth - 2)

/-- No function of the program carries a floating point literal. -/
def Program.FloatFree (program : Program) : Prop :=
  ∀ f ∈ program.functions, f.FloatFree

namespace Function

variable {room : Nat} {f : Function}

/-- A function is written with some of its fields, and always with its body. -/
theorem exists_members (f : Function)
    : ∃ members, f.toJson = Json.ofMembers members
      ∧ (members.map Prod.fst).Sublist fieldNames
      ∧ members.lookup "name" = some (Json.ofString f.name)
      ∧ members.lookup "args"
        = (if f.params.isEmpty then none else some (.array (f.params.map Param.toJson)))
      ∧ members.lookup "type" = f.returnType.map Ty.toJson
      ∧ members.lookup "instrs" = some (.array (f.body.map Instruction.toJson)) := by
  refine ⟨_, rfl, ?_, ?_⟩
  · have parts : fieldNames = "name" :: (["args"] ++ ["type"] ++ ["instrs"]) := rfl
    simp only [parts, List.map_cons, List.map_append]
    exact .cons_cons _ (Json.unless_sublist.append Json.optionMember_sublist |>.append (.refl _))
  · simp [List.lookup_cons, List.lookup_append, Json.lookup_optionMember, Json.lookup_unless]

/-- A function that fits and has no floating point literal is written so that it is read back. -/
theorem carries_toJson (fits : f.Fits (room + 4)) (noFloat : f.FloatFree)
    : Carries (ofJson? (room + 4)) (room + 4) f.toJson f := by
  have params : Carries (Json.listOf? Param.ofJson? (room + 3)) (room + 3)
      (.array (f.params.map Param.toJson)) f.params :=
    Json.carries_array _ fun param member =>
      Param.carries_toJson (Nat.le_of_add_le_add_right (fits.params param member))
  have returnType : ∀ ty ∈ f.returnType, Carries (Ty.ofJson? (room + 3)) (room + 3) ty.toJson ty :=
    fun ty given => Ty.carries_toJson (Nat.le_of_add_le_add_right (fits.returnType ty given))
  have body : Carries (Json.listOf? Instruction.ofJson? (room + 3)) (room + 3)
      (.array (f.body.map Instruction.toJson)) f.body :=
    Json.carries_array _ fun instruction member =>
      have inside {op : Operation} (given : op ∈ instruction.operation?) : op ∈ f.operations :=
        List.mem_filterMap.mpr ⟨instruction, member, given⟩
      have types : ∀ op ∈ instruction.operation?, ∀ ty ∈ op.ty, ty.depth ≤ room + 1 :=
        fun op given ty declared =>
          Nat.le_of_add_le_add_right (fits.operations op (inside given) ty declared)
      Instruction.carries_toJson types fun op given => noFloat op (inside given)
  constructor
  · refine Json.isHoldable_ofMembers.mpr (List.forall_mem_cons.mpr ⟨rfl, ?_⟩)
    simp only [List.forall_mem_append]
    exact ⟨⟨Json.holds_unless params.holds,
      Json.holds_optionMember fun ty given => (returnType ty given).holds⟩,
      List.forall_mem_singleton.mpr body.holds⟩
  · obtain ⟨members, written, names, name, args, ty, instrs⟩ := f.exists_members
    let fields : Json.Fields := (members.lookup ·)
    have read : f.toJson.fields? fieldNames 1 (room + 4) = some fields :=
      written ▸ Json.fields?_ofMembers (names.nodup (by decide))
    have readName : fields.required "name" Json.string? = some f.name :=
      Json.required_eq_some name rfl
    have readParams : fields.withDefault "args" [] (Json.listOf? Param.ofJson? (room + 3))
        = some f.params :=
      Json.withDefault_eq_some args List.isEmpty_iff.mp params.reads
    have readType : fields.withDefault "type" none (Json.nullable? (Ty.ofJson? (room + 3)))
        = some f.returnType :=
      Json.withDefault_nullable?_eq_some ty rfl fun ty given => (returnType ty given).reads
    have readBody : fields.withDefault "instrs" [] (Json.listOf? Instruction.ofJson? (room + 3))
        = some f.body := by
      rw [Json.Fields.withDefault, show fields "instrs" = _ from instrs]
      exact body.reads
    simp only [ofJson?, read, Nat.add_one_sub_one, readName, readParams, readType, readBody,
      Option.bind_eq_bind, Option.bind_some]

/-- A function that is read fits. -/
theorem fits_of_ofJson? {value : Json} (read : ofJson? room value = some f) : f.Fits room := by
  simp only [ofJson?, Option.bind_eq_bind, Option.bind_eq_some_iff] at read
  obtain ⟨fields, record, name, _, params, args, returnType, type, body, instrs, ⟨⟩⟩ := read
  have level := Json.ne_zero_of_fields? record
  constructor
  · intro param member
    obtain ⟨item, inner⟩ := Json.of_withDefault_listOf? args param member
    have := Param.depth_lt_of_ofJson? inner
    omega
  · intro ty given
    obtain ⟨content, inner⟩ := Json.of_withDefault_nullable? type ty given
    have := Ty.depth_le_of_ofJson? inner
    omega
  · intro op member ty declared
    obtain ⟨instruction, inBody, given⟩ := List.mem_filterMap.mp member
    obtain ⟨item, inner⟩ := Json.of_withDefault_listOf? instrs instruction inBody
    have := Instruction.depth_lt_of_ofJson? inner op given ty declared
    omega

end Function

namespace Program

variable {program : Program}

/-- A program that fits and has no floating point literal is written so that it is read back. -/
theorem carries_toJson (fits : program.Fits) (noFloat : program.FloatFree)
    : Carries ofJson? Json.maxDepth program.toJson program := by
  have functions : Carries (Json.listOf? Function.ofJson? (Json.maxDepth - 1)) (Json.maxDepth - 1)
      (.array (program.functions.map Function.toJson)) program.functions :=
    Json.carries_array _ fun f member => Function.carries_toJson (fits f member) (noFloat f member)
  constructor
  · exact Json.isHoldable_ofMembers.mpr (List.forall_mem_singleton.mpr functions.holds)
  · let fields : Json.Fields :=
      ([("functions", Json.array (program.functions.map Function.toJson))].lookup ·)
    have record : program.toJson.fields? ["functions"] 1 Json.maxDepth = some fields :=
      Json.fields?_ofMembers (by simp)
    have read : fields.required "functions" (Json.listOf? Function.ofJson? (Json.maxDepth - 1))
        = some program.functions :=
      Json.required_eq_some Json.lookup_pair functions.reads
    simp only [ofJson?, record, read, Option.bind_eq_bind, Option.bind_some]

/-- A program that a text is read as fits. -/
theorem fits_of_parse? {text : String} (read : parse? text = some program) : program.Fits := by
  obtain ⟨value, _, content⟩ := Option.bind_eq_some_iff.mp read
  simp only [ofJson?, Option.bind_eq_bind, Option.bind_eq_some_iff] at content
  obtain ⟨fields, _, functions, list, ⟨⟩⟩ := content
  obtain ⟨value, items⟩ := Json.exists_of_required list
  intro f member
  obtain ⟨item, inner⟩ := Json.exists_of_listOf? items f member
  exact Function.fits_of_ofJson? inner

theorem parse?_compact (fits : program.Fits) (noFloat : program.FloatFree)
    : parse? program.compact = some program := by
  obtain ⟨holds, reads⟩ := carries_toJson fits noFloat
  rw [parse?, compact, Json.parse?_compact holds, Option.bind_some, reads]

theorem parse?_pretty (fits : program.Fits) (noFloat : program.FloatFree)
    : parse? program.pretty = some program := by
  obtain ⟨holds, reads⟩ := carries_toJson fits noFloat
  rw [parse?, pretty, Json.parse?_pretty holds, Option.bind_some, reads]

/-- Without floating point literals, the nesting of types is all that keeps a program from being
read from some text.
-/
theorem exists_parse?_iff_fits (noFloat : program.FloatFree)
    : (∃ text, parse? text = some program) ↔ program.Fits :=
  ⟨fun ⟨_, read⟩ => fits_of_parse? read, fun fits => ⟨_, parse?_compact fits noFloat⟩⟩

/-- A program that a text is read as is read back from both texts that it is written as, when it
has no floating point literal. The first text need not be one of them: records given as arrays,
members in another order, unknown ones and nulls are read as well.
-/
theorem parse?_compact_and_pretty {text : String} (read : parse? text = some program)
    (noFloat : program.FloatFree)
    : parse? program.compact = some program ∧ parse? program.pretty = some program :=
  ⟨parse?_compact (fits_of_parse? read) noFloat, parse?_pretty (fits_of_parse? read) noFloat⟩

/-- A program given as arrays in arrays, with a label that is an escaped pair of surrogates and the
least integer that fits 64 bits.
-/
def nestedArrays : String :=
  "[[[\"f\", [[\"p\", \x7b\"ptr\": \"int\"\x7d]], null, [\x7b\"label\": \"\\ud83d\\ude00\"\x7d,
    [\"const\", \"x\", \"int\", [], -9223372036854775808], [\"ret\", null, null, [\"x\"]]]]]]"

/-- What it is read as. -/
def leastInteger : Program where
  functions := [{
    name := "f"
    params := [{ name := "p", ty := .ptr .int }]
    body := [
      .label "😀",
      .operation { opcode := .const, dest := "x", ty := some .int, value := some (.int .minValue) },
      .operation { opcode := .ret, args := ["x"] }] }]

theorem parse?_compact_and_pretty_nestedArrays
    : parse? nestedArrays = some leastInteger ∧ leastInteger.FloatFree
      ∧ parse? leastInteger.compact = some leastInteger
      ∧ parse? leastInteger.pretty = some leastInteger := by
  have read : parse? nestedArrays = some leastInteger := by decide +kernel
  have noFloat : leastInteger.FloatFree := by
    simp only [FloatFree, Function.FloatFree, leastInteger, Function.operations,
      List.forall_mem_singleton, List.filterMap_cons, List.filterMap_nil, Instruction.operation?,
      List.forall_mem_cons]
    simp
  exact ⟨read, noFloat, parse?_compact_and_pretty read noFloat⟩

end Program

end ThreeAddress
