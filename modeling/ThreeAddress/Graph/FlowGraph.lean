import ThreeAddress.Graph.BlockSet

/-! The shape of a control flow graph: its blocks and the edges between them. Predecessors are
derived from successors, so the two always agree.
-/

namespace ThreeAddress

/-- A table with another value in one place. -/
def updateAt {α : Type} {n : Nat} (table : Vector α n) (b : Fin n) (value : α) : Vector α n :=
  table.set b.val value b.isLt

/-- Only the value in that one place is another. -/
@[simp] theorem get_updateAt {α : Type} {n : Nat} (table : Vector α n) (b c : Fin n) (value : α)
    : (updateAt table b value).get c = if b = c then value else table.get c := by
  simp only [updateAt, Fin.ext_iff]
  exact Vector.getElem_set b.isLt c.isLt

/-- A graph of blocks numbered in layout order. The first block is the entry. -/
structure FlowGraph where
  /-- How many blocks there are. -/
  size : Nat
  /-- There is an entry. -/
  size_pos : 0 < size
  /-- The successors of each block, in the order of its branch targets. -/
  edges : Vector (List (Fin size)) size

namespace FlowGraph

/-- A block of the graph. -/
abbrev Block (g : FlowGraph) := Fin g.size

def entry (g : FlowGraph) : g.Block :=
  ⟨0, g.size_pos⟩

/-- Every block in layout order. -/
def blocks (g : FlowGraph) : List g.Block :=
  List.finRange g.size

/-- The successors of a block, in the order of its branch targets. -/
def succs (g : FlowGraph) (b : g.Block) : List g.Block :=
  g.edges.get b

/-- The predecessors of a block, in layout order. -/
def preds (g : FlowGraph) (b : g.Block) : List g.Block :=
  g.blocks.filter fun p => (g.succs p).contains b

/-- The position of an edge among the edges into a block. -/
def predIndex? (g : FlowGraph) (b pred : g.Block) : Option Nat :=
  (g.preds b).idxOf? pred

/-- The set of the blocks in a list. -/
def setOf {g : FlowGraph} (blocks : List g.Block) : BlockSet :=
  BlockSet.ofList (blocks.map (·.val))

/-- The members of a set that are blocks of the graph, in layout order. -/
def members (g : FlowGraph) (set : BlockSet) : List g.Block :=
  g.blocks.filter fun b => set.contains b

@[simp] theorem mem_blocks (g : FlowGraph) (b : g.Block) : b ∈ g.blocks :=
  List.mem_finRange b

/-- A block precedes another exactly when the other succeeds it. -/
@[simp] theorem mem_preds (g : FlowGraph) (b p : g.Block)
    : p ∈ g.preds b ↔ b ∈ g.succs p := by
  simp [preds]

/-- A block is among the members of a set exactly when the set contains it. -/
@[simp] theorem mem_members (g : FlowGraph) (set : BlockSet) (b : g.Block)
    : b ∈ g.members set ↔ set.contains b = true := by
  simp [members]

/-- How many blocks are not in a set. -/
def countOutside (g : FlowGraph) (set : BlockSet) : Nat :=
  g.blocks.countP fun b : g.Block => !set.contains b

/-- Keeping fewer elements, and one of them strictly, counts fewer. -/
theorem countP_lt_of_imp {α : Type} {p q : α → Bool} {x : α}
    (imp : ∀ y, p y = true → q y = true) (no : p x = false) (yes : q x = true)
    : ∀ {l : List α}, x ∈ l → l.countP p < l.countP q
  | y :: l, h => by
    have tail : l.countP p ≤ l.countP q := List.countP_mono_left fun y _ => imp y
    rcases List.mem_cons.mp h with rfl | h
    · simp [no, yes]
      omega
    · have rest := countP_lt_of_imp imp no yes h
      have head : (if p y = true then 1 else 0) ≤ if q y = true then 1 else 0 := by
        split
        · next py => simp [imp y py]
        · exact Nat.zero_le _
      rw [List.countP_cons, List.countP_cons]
      omega

/-- Adding a block that was outside leaves fewer blocks outside. -/
theorem countOutside_insert_lt (g : FlowGraph) {set : BlockSet} {b : g.Block}
    (outside : set.contains b = false)
    : g.countOutside (set.insert b) < g.countOutside set := by
  refine countP_lt_of_imp ?_ (x := b) ?_ ?_ (g.mem_blocks b)
  · intro y
    simp
  · simp
  · simp [outside]

end FlowGraph

end ThreeAddress
