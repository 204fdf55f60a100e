import Enfold.Value.Basic

/-! # Values that are equal

Truth values and numbers are equal if they amount to the same, whatever their kinds. All other values
are equal only to those of their own kind, part by part.
-/

namespace Enfold

/-- What a number amounts to. -/
inductive Amount where
  | finite (q : Rat)
  | infinite (negative : Bool)
  deriving DecidableEq, Repr

namespace Decimal

def Binary.toRat (b : Binary) : Rat :=
  mkRat (b.significand * Nat.pow 2 b.power.toNat) (Nat.pow 2 (-b.power).toNat)

def amount? : Decimal → Option Amount
  | finite negative m e =>
    let (num, den) := scaled 10 m e
    match nearestBinary? num den with
    | some b => some (.finite (if negative then -b.toRat else b.toRat))
    | none => some (.infinite negative)
  | infinite negative => some (.infinite negative)
  | notNumber => none

end Decimal

namespace Value

def amount? : Value → Option Amount
  | bool b => some (.finite (if b then 1 else 0))
  | int n => some (.finite n)
  | decimal d => d.amount?
  | null | text _ | list _ | object _ => none

mutual

def same : Value → Value → Bool
  | null, null => true
  | text s, text t => s = t
  | list xs, list ys => sameItems xs ys
  | object ms, object ns => ms.length = ns.length && sameMembers ms ns
  | v, w => v.amount?.isSome && v.amount? = w.amount?

def sameItems : List Value → List Value → Bool
  | [], [] => true
  | v :: r, w :: r' => same v w && sameItems r r'
  | _, _ => false

/-- The order of members does not count. -/
def sameMembers : List (String × Value) → List (String × Value) → Bool
  | [], _ => true
  | (k, v) :: r, ns =>
    (match Assoc.get? k ns with
    | some w => same v w
    | none => false) && sameMembers r ns

end

theorem same_text {s : String} {v : Value} : same (.text s) v ↔ v = .text s := by
  cases v <;> simp [same, amount?, eq_comm]

/-- A value that can be changed is no key of a mapping. -/
def isKey : Value → Bool
  | list _ | object _ => false
  | null | bool _ | int _ | decimal _ | text _ => true

end Value
end Enfold
