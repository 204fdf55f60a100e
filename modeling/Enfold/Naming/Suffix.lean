import Enfold.Naming.Plural
import Enfold.Value.Shown

/-! # Suffixes

A name that is taken in its scope gets the least number for which the numbered name is free. How
many numbers may be tried is an option, and a name for which none of them helps is an error.
-/

namespace Enfold.Naming

structure Rename where
  scope : Option String
  requested : String
  assigned : String
  deriving DecidableEq, Repr

/-- The first free name among `name` followed by `k`, `k + 1`, … of `tries` numbers. -/
def leastFree? (taken : List String) (name : String) : (tries k : Nat) → Option String
  | 0, _ => none
  | tries + 1, k =>
    let candidate := name ++ toString k
    if candidate ∈ taken then leastFree? taken name tries (k + 1) else some candidate

/-- A name that is free in its scope, and the change that it took. -/
def disambiguate (limit : Value) (name : String) (taken : List String) (scope : Option String) :
    Except NameError (String × Option Rename) :=
  if name ∈ taken then
    match limit.asInt? with
    | none => .error .limitNotWhole
    | some n =>
      match leastFree? taken name n.toNat 1 with
      | some free => .ok (free, some ⟨scope, name, free⟩)
      | none => .error (.exhausted name (scope.getD "None") limit.plain)
  else .ok (name, none)

end Enfold.Naming
