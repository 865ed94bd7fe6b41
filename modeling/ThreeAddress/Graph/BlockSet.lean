/-! Sets of blocks as bit masks. A set is determined by its members, and its members in order
are its blocks in layout order.
-/

namespace ThreeAddress

/-- The number of a block: its position in the layout of its function. -/
abbrev BlockId := Nat

/-- A finite set of blocks: bit `b` of the mask tells whether block `b` is a member. -/
structure BlockSet where
  mask : Nat := 0
deriving DecidableEq, Repr

namespace BlockSet

def empty : BlockSet := {}

def contains (set : BlockSet) (block : BlockId) : Bool :=
  set.mask.testBit block

def insert (set : BlockSet) (block : BlockId) : BlockSet :=
  ⟨set.mask ||| 1 <<< block⟩

/-- The set without one member. -/
def erase (set : BlockSet) (block : BlockId) : BlockSet :=
  if set.contains block then ⟨set.mask ^^^ 1 <<< block⟩ else set

def inter (left right : BlockSet) : BlockSet :=
  ⟨left.mask &&& right.mask⟩

def union (left right : BlockSet) : BlockSet :=
  ⟨left.mask ||| right.mask⟩

/-- The members of the first set that are not in the second. -/
def diff (left right : BlockSet) : BlockSet :=
  ⟨left.mask ^^^ (left.mask &&& right.mask)⟩

def isSubset (left right : BlockSet) : Bool :=
  left.inter right == left

/-- The set of the blocks in a list. -/
def ofList (blocks : List BlockId) : BlockSet :=
  blocks.foldl insert empty

/-- The positions of the bits of a mask that are set, the highest first. -/
def bitsDown (mask : Nat) : List BlockId :=
  if mask = 0 then []
  else mask.log2 :: bitsDown (mask % (1 <<< mask.log2))
termination_by mask
decreasing_by
  rename_i nonzero
  rw [Nat.one_shiftLeft]
  exact Nat.lt_of_lt_of_le (Nat.mod_lt _ (Nat.two_pow_pos _)) (Nat.log2_self_le nonzero)

def toList (set : BlockSet) : List BlockId :=
  (bitsDown set.mask).reverse

/-- Sets with the same members are equal, since numbers with the same bits are. -/
theorem ext {left right : BlockSet} (h : ∀ b, left.contains b = right.contains b)
    : left = right := by
  cases left
  cases right
  simpa [contains] using Nat.eq_of_testBit_eq h

@[simp] theorem contains_empty (b : BlockId) : empty.contains b = false := by
  simp [empty, contains]

/-- The members after an insertion are the new block and the old members. -/
@[simp] theorem contains_insert (set : BlockSet) (a b : BlockId)
    : (set.insert a).contains b = (decide (a = b) || set.contains b) := by
  simp [insert, contains, Nat.one_shiftLeft, Nat.testBit_or, Nat.testBit_two_pow, Bool.or_comm]

/-- The members after an erasure are the old members except the erased block. -/
@[simp] theorem contains_erase (set : BlockSet) (a b : BlockId)
    : (set.erase a).contains b = (!decide (a = b) && set.contains b) := by
  by_cases h : a = b <;> cases ha : set.mask.testBit a <;>
    simp_all [erase, contains, Nat.one_shiftLeft, Nat.testBit_xor]

/-- A bit is listed exactly when it is set: it is the highest one, or it is below the highest one
and set in what remains without that.
-/
theorem mem_bitsDown (mask : Nat) (b : BlockId) : b ∈ bitsDown mask ↔ mask.testBit b = true := by
  induction mask using Nat.strongRecOn with
  | ind mask ih =>
    rw [bitsDown]
    split
    · next zero => simp [zero]
    · next nonzero =>
      have top := Nat.log2_self_le nonzero
      have smaller : mask % (1 <<< mask.log2) < mask := by
        rw [Nat.one_shiftLeft]
        exact Nat.lt_of_lt_of_le (Nat.mod_lt _ (Nat.two_pow_pos _)) top
      rw [List.mem_cons, ih _ smaller, Nat.one_shiftLeft, Nat.testBit_mod_two_pow]
      rcases Nat.lt_trichotomy b mask.log2 with below | same | above
      · simp [below, Nat.ne_of_lt below]
      · simp [same, Nat.testBit_log2 nonzero]
      · have none : mask.testBit b = false :=
          Nat.testBit_lt_two_pow (Nat.lt_of_lt_of_le Nat.lt_log2_self
            (Nat.pow_le_pow_right (by decide) above))
        simp [none, Nat.ne_of_gt above]

@[simp] theorem mem_toList (set : BlockSet) (b : BlockId)
    : b ∈ set.toList ↔ set.contains b = true := by
  simp [toList, contains, mem_bitsDown]

@[simp] theorem contains_inter (left right : BlockSet) (b : BlockId)
    : (left.inter right).contains b = (left.contains b && right.contains b) := by
  simp [inter, contains, Nat.testBit_and]

@[simp] theorem contains_union (left right : BlockSet) (b : BlockId)
    : (left.union right).contains b = (left.contains b || right.contains b) := by
  simp [union, contains, Nat.testBit_or]

/-- A block is in a difference when it is in the first set only. -/
@[simp] theorem contains_diff (left right : BlockSet) (b : BlockId)
    : (left.diff right).contains b = (left.contains b && !right.contains b) := by
  cases h : left.contains b <;> cases h' : right.contains b <;>
    simp_all [diff, contains, Nat.testBit_xor, Nat.testBit_and]

theorem isSubset_iff (left right : BlockSet)
    : left.isSubset right = true
      ↔ ∀ b, left.contains b = true → right.contains b = true := by
  rw [isSubset, beq_iff_eq]
  constructor
  · intro h b hb
    rw [← h, contains_inter] at hb
    simp_all
  · intro h
    apply ext
    intro b
    have := h b
    cases hl : left.contains b <;> simp_all

end BlockSet

end ThreeAddress
