/-! # Character ranges

Classes of characters are given as tables of code point ranges.
-/

namespace Enfold.Text

def inRanges (table : Array (Nat × Nat)) (n : Nat) : Bool :=
  table.any fun r => r.1 ≤ n && n ≤ r.2

end Enfold.Text
