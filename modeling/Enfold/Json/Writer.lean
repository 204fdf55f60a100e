import Enfold.Value.Shown

/-! # Writing JSON text

A value is written on one line and without blanks. In a string only the quote, the backslash and
control characters are escaped, so every other character stands for itself.
-/

namespace Enfold.Json

def escapeChar (c : Char) : List Char :=
  if c = '"' ∨ c = '\\' then ['\\', c]
  else if c.toNat < 0x20 ∨ c.toNat = 0x7F then '\\' :: 'u' :: Text.hexDigits c.toNat 4
  else [c]

def quoted (s : String) : String := String.ofList ('"' :: s.toList.flatMap escapeChar ++ ['"'])

/-- A decimal, with words for what is no finite number. -/
def writeDecimal : Decimal → String
  | .finite negative m e => Decimal.signed negative ((Decimal.finiteText? m e).getD "Infinity")
  | .infinite negative => Decimal.signed negative "Infinity"
  | .notNumber => "NaN"

mutual

def write : Value → String
  | .null => "null"
  | .bool b => if b then "true" else "false"
  | .int n => toString n
  | .decimal d => writeDecimal d
  | .text s => quoted s
  | .list items => "[" ++ ",".intercalate (writeItems items) ++ "]"
  | .object members => "\x7b" ++ ",".intercalate (writeMembers members) ++ "\x7d"

def writeItems : List Value → List String
  | [] => []
  | v :: r => write v :: writeItems r

def writeMembers : List (String × Value) → List String
  | [] => []
  | (k, v) :: r => (quoted k ++ ":" ++ write v) :: writeMembers r

end

end Enfold.Json
