import Enfold.Assoc
import Enfold.Value.Decimal

/-! # Loosely typed values

Options, annotations and model descriptions arrive as values whose kind is not known in advance:
nothing, a truth value, a number, a text, a list, or an object whose members keep their order.
-/

namespace Enfold

inductive Value where
  | null
  | bool (b : Bool)
  | int (n : Int)
  | decimal (d : Decimal)
  | text (s : String)
  | list (items : List Value)
  | object (members : List (String × Value))
  deriving Repr, Inhabited, BEq

namespace Value

/-- Nothing, zero and what is empty count as false. -/
def isTruthy : Value → Bool
  | null => false
  | bool b => b
  | int n => n ≠ 0
  | decimal d => !d.isZero
  | text s => s ≠ ""
  | list items => !items.isEmpty
  | object members => !members.isEmpty

def isNull : Value → Bool
  | null => true
  | _ => false

def asText? : Value → Option String
  | text s => some s
  | _ => none

/-- The whole number of a value; a truth value counts as one or zero. -/
def asInt? : Value → Option Int
  | int n => some n
  | bool b => some (if b then 1 else 0)
  | _ => none

def asBool? : Value → Option Bool
  | bool b => some b
  | _ => none

def members? : Value → Option (Assoc String Value)
  | object ms => some ms
  | _ => none

def items? : Value → Option (List Value)
  | list xs => some xs
  | _ => none

def member? (name : String) : Value → Option Value
  | object ms => Assoc.get? name ms
  | _ => none

end Value

instance : Coe String Value := ⟨Value.text⟩

end Enfold
