import Enfold.Failure

/-! # Channels

Notices go out through named channels below one root. The root channel has a threshold, which is
set by number or by name, and gets an outlet when a threshold is first set.
-/

namespace Enfold

namespace Channel

def root : String := "element_wrapper"

/-- The full name of a channel, which stands below the root. -/
def fullName (name : String) : String :=
  if name = root || (root ++ ".").toList.isPrefixOf name.toList then name else root ++ "." ++ name

def thresholds : Assoc String Int :=
  [("CRITICAL", 50), ("FATAL", 50), ("ERROR", 40), ("WARN", 30), ("WARNING", 30), ("INFO", 20),
    ("DEBUG", 10), ("NOTSET", 0)]

/-- A number as it is, or the threshold of a name in any case. -/
def threshold (v : Value) : Except Misuse Value :=
  match v with
  | .int _ | .bool _ => .ok v
  | .text s =>
    let name := Text.upper s
    match Assoc.get? name thresholds with
    | some n => .ok (.int n)
    | none => .error (.invalid ("Unknown level: " ++ Text.quoted name))
  | _ => .error .noSuchAttribute

/-- What each of several thresholds comes to, and how many outlets there are then. -/
def configure (given : List Value) : List (Except Misuse (Value × Nat)) :=
  given.map fun v => (threshold v).map fun t => (t, 1)

end Channel
end Enfold
