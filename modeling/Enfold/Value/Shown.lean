import Enfold.Value.Basic
import Enfold.Text.Printable

/-! # Values in messages

Messages show a value so that its kind can be told: a text stands in quotes, with what does not
print written as an escape. The quotes are single unless the text holds a single quote and no
double one.
-/

namespace Enfold

namespace Text

/-- The lowest `n` hexadecimal digits of a number. -/
def hexDigits (n width : Nat) : List Char :=
  let ds := Nat.toDigits 16 n
  List.replicate (width - ds.length) '0' ++ ds

def escapeChar (quote c : Char) : List Char :=
  if c = '\\' ∨ c = quote then ['\\', c]
  else if c = '\n' then ['\\', 'n']
  else if c = '\r' then ['\\', 'r']
  else if c = '\t' then ['\\', 't']
  else if isPrintable c then [c]
  else if c.toNat < 0x100 then '\\' :: 'x' :: hexDigits c.toNat 2
  else if c.toNat < 0x10000 then '\\' :: 'u' :: hexDigits c.toNat 4
  else '\\' :: 'U' :: hexDigits c.toNat 8

def quoteOf (s : List Char) : Char := if '\'' ∈ s ∧ '"' ∉ s then '"' else '\''

def quoted (s : String) : String :=
  let q := quoteOf s.toList
  String.ofList (q :: s.toList.flatMap (escapeChar q) ++ [q])

end Text

namespace Value

mutual

def shown : Value → String
  | null => "None"
  | bool b => if b then "True" else "False"
  | int n => toString n
  | decimal d => d.text
  | text s => Text.quoted s
  | list items => "[" ++ ", ".intercalate (shownItems items) ++ "]"
  | object members => "\x7b" ++ ", ".intercalate (shownMembers members) ++ "\x7d"

def shownItems : List Value → List String
  | [] => []
  | v :: r => v.shown :: shownItems r

def shownMembers : List (String × Value) → List String
  | [] => []
  | (k, v) :: r => (Text.quoted k ++ ": " ++ v.shown) :: shownMembers r

end

/-- The value as running text: a text stands for itself. -/
def plain : Value → String
  | text s => s
  | v => v.shown

def kindName : Value → String
  | null => "NoneType"
  | bool _ => "bool"
  | int _ => "int"
  | decimal _ => "float"
  | text _ => "str"
  | list _ => "list"
  | object _ => "dict"

end Value
end Enfold
