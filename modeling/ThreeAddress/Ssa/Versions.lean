import Std.Data.ExtTreeMap

/-! Versions of variables: a counter that never goes back, and a stack of those in scope. -/

namespace ThreeAddress

/-- For each variable the number of versions created so far and the stack of those in scope,
newest first. Empty stacks are not kept.
-/
structure Versions where
  counters : Std.ExtTreeMap String Nat := ∅
  scopes : Std.ExtTreeMap String (List String) := ∅

def versionName (var : String) (number : Nat) : String :=
  var ++ "." ++ toString number

namespace Versions

def empty : Versions := {}

/-- How many versions of a variable have been created. -/
def count (versions : Versions) (var : String) : Nat :=
  versions.counters.getD var 0

/-- The versions of a variable in scope, newest first. -/
def stack (versions : Versions) (var : String) : List String :=
  versions.scopes.getD var []

/-- The newest version of a variable in scope. -/
def current? (versions : Versions) (var : String) : Option String :=
  (versions.stack var).head?

/-- Creates the next version of a variable and brings it into scope. -/
def fresh (versions : Versions) (var : String) : String × Versions :=
  let number := versions.count var
  let name := versionName var number
  (name,
    { counters := versions.counters.insert var (number + 1)
      scopes := versions.scopes.insert var (name :: versions.stack var) })

/-- Takes the newest version of a variable out of scope, if there is one. -/
def pop (versions : Versions) (var : String) : Versions :=
  let scopes := match versions.stack var with
    | _ :: next :: rest => versions.scopes.insert var (next :: rest)
    | _ => versions.scopes.erase var
  { versions with scopes }

/-- No version of any variable is in scope. -/
def isBalanced (versions : Versions) : Bool :=
  versions.scopes.isEmpty

end Versions

end ThreeAddress
