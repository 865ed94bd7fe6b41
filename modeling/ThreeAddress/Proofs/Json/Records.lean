import ThreeAddress.Program.Interchange

/-! Data in the arrays and objects it is written as. A value carries data when it can be held whole
and is read as the data; of a record, what is left out is read as its default.
-/

namespace ThreeAddress.Json

/-- A value that can be held whole and is read as some data. -/
structure Carries {α : Type} (read? : Json → Option α) (room : Nat) (value : Json) (data : α)
    : Prop where
  holds : value.isHoldable room
  reads : read? value = some data

section Arrays

variable {α : Type} {encode : α → Json} {room : Nat} {value : Json} {data : List α}

theorem areHoldable_iff {items : List Json}
    : areHoldable room items ↔ ∀ item ∈ items, item.isHoldable room := by
  induction items with
  | nil => simp [areHoldable]
  | cons item rest ih => simp [areHoldable, ih]

theorem mapM_eq_some_of_forall {read? : Json → Option α}
    (each : ∀ x ∈ data, read? (encode x) = some x)
    : (data.map encode).mapM read? = some data := by
  induction data with
  | nil => rfl
  | cons x rest ih =>
      obtain ⟨first, later⟩ := List.forall_mem_cons.mp each
      rw [List.map_cons, List.mapM_cons, first, ih later]
      rfl

theorem exists_of_mapM_eq_some {read? : Json → Option α} {items : List Json}
    (read : items.mapM read? = some data)
    : ∀ x ∈ data, ∃ item, read? item = some x := by
  induction items generalizing data with
  | nil =>
      cases read
      exact List.forall_mem_nil _
  | cons item rest ih =>
      simp only [List.mapM_cons, Option.bind_eq_bind, Option.bind_eq_some_iff] at read
      obtain ⟨x, first, later, others, ⟨⟩⟩ := read
      exact List.forall_mem_cons.mpr ⟨⟨item, first⟩, ih others⟩

/-- An array of what carries the items carries the list. -/
theorem carries_array (item? : Nat → Json → Option α)
    (each : ∀ x ∈ data, Carries (item? room) room (encode x) x)
    : Carries (listOf? item? (room + 1)) (room + 1) (.array (data.map encode)) data where
  holds := by
    simp only [isHoldable, Nat.add_one_sub_one, Bool.and_eq_true, areHoldable_iff,
      List.forall_mem_map]
    exact ⟨rfl, fun x member => (each x member).holds⟩
  reads := by
    simp only [listOf?, items?, Nat.add_one_ne_zero, if_false, Option.bind_some,
      Nat.add_one_sub_one]
    exact mapM_eq_some_of_forall fun x member => (each x member).reads

/-- What is in a list that is read was read from an item, with less room. -/
theorem exists_of_listOf? {item? : Nat → Json → Option α}
    (read : listOf? item? room value = some data)
    : ∀ x ∈ data, ∃ item, item? (room - 1) item = some x := by
  obtain ⟨items, _, each⟩ := Option.bind_eq_some_iff.mp read
  exact exists_of_mapM_eq_some each

theorem carries_ofStrings (texts : List String)
    : Carries (names? (room + 1)) (room + 1) (ofStrings texts) texts :=
  carries_array (fun _ => string?) fun _ _ => ⟨rfl, rfl⟩

end Arrays

section Members

variable {room : Nat} {members : List (String × Json)}

theorem areHoldableMembers_iff {members : List (Option String × Json)}
    : areHoldableMembers room members
      ↔ ∀ member ∈ members, member.1.isSome ∧ member.2.isHoldable room := by
  induction members with
  | nil => simp [areHoldableMembers]
  | cons member rest ih => simp [areHoldableMembers, ih]

theorem isHoldable_ofMembers
    : (ofMembers members).isHoldable (room + 1)
      ↔ ∀ member ∈ members, member.2.isHoldable room := by
  simp only [ofMembers, isHoldable, Nat.add_one_sub_one, Bool.and_eq_true, areHoldableMembers_iff,
    List.forall_mem_map]
  simp

theorem member?_map (name : String)
    : member? (members.map fun (name, value) => (some name, value)) name = members.lookup name := by
  induction members with
  | nil => rfl
  | cons member rest ih =>
      obtain ⟨label, value⟩ := member
      unfold member? at ih ⊢
      rw [List.map_cons, List.find?_cons, List.lookup_cons]
      by_cases named : label = name
      · simp [named]
      · have other : (some label == some name) = false := by simpa using named
        have other' : (name == label) = false := by simpa using Ne.symm named
        simp only [other, other', ih]

theorem memberCount_map (name : String)
    : memberCount (members.map fun (name, value) => (some name, value)) name
      = (members.map (·.1)).count name := by
  simp [memberCount, List.countP_map, List.count, Function.comp_def]

/-- A record with distinct members has these as its fields. -/
theorem fields?_ofMembers {names : List String} {required : Nat}
    (distinct : (members.map (·.1)).Nodup)
    : (ofMembers members).fields? names required (room + 1) = some (members.lookup ·) := by
  have once : ¬names.any fun name =>
      1 < memberCount (members.map fun (name, value) => (some name, value)) name := by
    simp only [memberCount_map, List.any_eq_true, decide_eq_true_eq, not_exists, not_and,
      Nat.not_lt]
    exact fun name _ => List.nodup_iff_count.mp distinct name
  rw [ofMembers, fields?, if_neg (by simpa using once)]
  simp only [funext member?_map]

/-- A record takes one level. -/
theorem ne_zero_of_fields? {names : List String} {required : Nat} {value : Json} {fields : Fields}
    (read : value.fields? names required room = some fields)
    : room ≠ 0 := by
  rintro rfl
  cases value <;> simp [fields?] at read

-----------------------------------------------------------------------------------------
-- Members that are left out when there is nothing to write
-----------------------------------------------------------------------------------------

variable {α : Type} {name other : String} {value : Json} {texts : List String}
  {encode : α → Json} {data : Option α} {absent : Prop} [Decidable absent]

theorem lookup_pair
    : [(name, value)].lookup other = if other = name then some value else none := by
  rw [List.lookup_cons, List.lookup_nil]
  by_cases named : other = name
  · simp [named]
  · simp only [beq_false_of_ne named, if_neg named]

theorem lookup_unless
    : (if absent then [] else [(name, value)]).lookup other
      = if other = name then (if absent then none else some value) else none := by
  split <;> simp [lookup_pair]

theorem lookup_listMember
    : (listMember name texts).lookup other
      = if other = name then (if texts.isEmpty then none else some (ofStrings texts)) else none :=
  lookup_unless

theorem lookup_optionMember
    : (optionMember name encode data).lookup other
      = if other = name then data.map encode else none := by
  cases data <;> simp [optionMember, lookup_pair]

theorem unless_sublist
    : ((if absent then [] else [(name, value)]).map Prod.fst).Sublist [name] := by
  split <;> simp

theorem listMember_sublist : ((listMember name texts).map Prod.fst).Sublist [name] :=
  unless_sublist

theorem optionMember_sublist : ((optionMember name encode data).map Prod.fst).Sublist [name] := by
  cases data <;> simp [optionMember]

theorem holds_unless (holds : value.isHoldable room)
    : ∀ member ∈ (if absent then [] else [(name, value)]), member.2.isHoldable room := by
  split
  · exact List.forall_mem_nil _
  · exact List.forall_mem_singleton.mpr holds

theorem holds_listMember
    : ∀ member ∈ listMember name texts, member.2.isHoldable (room + 1) :=
  holds_unless (carries_ofStrings texts).holds

theorem holds_optionMember (holds : ∀ x ∈ data, (encode x).isHoldable room)
    : ∀ member ∈ optionMember name encode data, member.2.isHoldable room := by
  cases data with
  | none => exact List.forall_mem_nil _
  | some x => exact List.forall_mem_singleton.mpr (holds x rfl)

end Members

section Fields

variable {α : Type} {fields : Fields} {name : String} {read? : Json → Option α}

/-- A field that has a default when it is not given holds the default or what was read. -/
theorem of_withDefault {default data : α}
    (read : fields.withDefault name default read? = some data)
    : data = default ∨ ∃ value, read? value = some data := by
  unfold Fields.withDefault at read
  split at read
  · exact .inr ⟨_, read⟩
  · exact .inl (Option.some.inj read).symm

/-- What is in the list of a field was read from an item, with less room. -/
theorem of_withDefault_listOf? {item? : Nat → Json → Option α} {room : Nat} {data : List α}
    (read : fields.withDefault name [] (listOf? item? room) = some data)
    : ∀ x ∈ data, ∃ item, item? (room - 1) item = some x := by
  obtain rfl | ⟨value, found⟩ := of_withDefault read
  · exact List.forall_mem_nil _
  · exact exists_of_listOf? found

/-- What a field that may be null or not given holds was read. -/
theorem of_withDefault_nullable? {data : Option α}
    (read : fields.withDefault name none (nullable? read?) = some data)
    : ∀ x ∈ data, ∃ value, read? value = some x := by
  rintro x rfl
  obtain absent | ⟨value, found⟩ := of_withDefault read
  · cases absent
  · unfold nullable? at found
    split at found
    · cases found
    · obtain ⟨y, content, ⟨⟩⟩ := Option.map_eq_some_iff.mp found
      exact ⟨value, content⟩

theorem required_eq_some {data : α} {value : Json} (written : fields name = some value)
    (reads : read? value = some data)
    : fields.required name read? = some data := by
  rw [Fields.required, written, Option.bind_some, reads]

theorem exists_of_required {data : α} (read : fields.required name read? = some data)
    : ∃ value, read? value = some data := by
  obtain ⟨value, _, content⟩ := Option.bind_eq_some_iff.mp read
  exact ⟨value, content⟩

/-- A default is left out and any other content is written, so either is read again. -/
theorem withDefault_eq_some {default data : α} {value : Json} {absent : Prop} [Decidable absent]
    (written : fields name = if absent then none else some value) (left : absent → data = default)
    (reads : read? value = some data)
    : fields.withDefault name default read? = some data := by
  by_cases leftOut : absent
  · simp [Fields.withDefault, written, leftOut, left leftOut]
  · simpa [Fields.withDefault, written, leftOut] using reads

/-- What is written for a value that may be absent is read as it when null cannot be. -/
theorem withDefault_nullable?_eq_some {encode : α → Json} {data : Option α}
    (written : fields name = data.map encode) (notNull : read? null = none)
    (reads : ∀ x ∈ data, read? (encode x) = some x)
    : fields.withDefault name none (nullable? read?) = some data := by
  cases data with
  | none => simp [Fields.withDefault, written]
  | some x =>
      have content := reads x rfl
      simp only [Fields.withDefault, written, Option.map_some, nullable?]
      split
      next isNull =>
        rw [isNull, notNull] at content
        cases content
      next => rw [content, Option.map_some]

end Fields

end ThreeAddress.Json
