import Std.Data.ExtTreeSet

/-! Ordered sets of names and unions of sets. -/

namespace ThreeAddress

/-- A set of names, listed in the order of their characters. -/
abbrev NameSet := Std.ExtTreeSet String

/-- The union of a list of sets. -/
def unionAll {α : Type} [Ord α] [Std.TransOrd α] (sets : List (Std.ExtTreeSet α))
    : Std.ExtTreeSet α :=
  sets.foldl (· ∪ ·) ∅

end ThreeAddress
