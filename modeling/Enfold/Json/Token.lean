import Enfold.Value.Basic

/-! # Tokens of JSON text

A text is cut into punctuation marks, strings, numbers and words before its nesting is looked at.
Infinity and what is no number have words of their own. What belongs to no token makes the text
unreadable.
-/

namespace Enfold.Json

inductive Token where
  | openList
  | closeList
  | openObject
  | closeObject
  | comma
  | colon
  | string (s : String)
  | scalar (v : Value)
  deriving Inhabited

def isSpace (c : Char) : Bool := c = ' ' || c = '\t' || c = '\n' || c = '\r'

def hexValue? (c : Char) : Option Nat :=
  if '0' ≤ c ∧ c ≤ '9' then some (c.toNat - '0'.toNat)
  else if 'a' ≤ c ∧ c ≤ 'f' then some (c.toNat - 'a'.toNat + 10)
  else if 'A' ≤ c ∧ c ≤ 'F' then some (c.toNat - 'A'.toNat + 10)
  else none

def hexUnit? (a b c d : Char) : Option Nat := do
  let a ← hexValue? a
  let b ← hexValue? b
  let c ← hexValue? c
  let d ← hexValue? d
  return ((a * 16 + b) * 16 + c) * 16 + d

def simpleEscape? : Char → Option Char
  | '"' => some '"'
  | '\\' => some '\\'
  | '/' => some '/'
  | 'b' => some '\x08'
  | 'f' => some '\x0c'
  | 'n' => some '\n'
  | 'r' => some '\r'
  | 't' => some '\t'
  | _ => none

/-- Reads a string into code units in reverse, up to its closing quote. -/
def scanString (acc : List Nat) : List Char → Option (List Nat × List Char)
  | [] => none
  | '"' :: r => some (acc, r)
  | '\\' :: 'u' :: a :: b :: c :: d :: r =>
    match hexUnit? a b c d with
    | some n => scanString (n :: acc) r
    | none => none
  | '\\' :: e :: r =>
    match simpleEscape? e with
    | some c => scanString (c.toNat :: acc) r
    | none => none
  | c :: r => if c.toNat < 0x20 ∨ c = '\\' then none else scanString (c.toNat :: acc) r

theorem length_of_scanString {acc u : List Nat} {s r : List Char}
    (h : scanString acc s = some (u, r)) : r.length < s.length := by
  fun_induction scanString acc s with
  | case1 => simp at h
  | case2 => simp only [Option.some.injEq, Prod.mk.injEq] at h; simp [← h.2]
  | case3 _ _ _ _ _ _ _ _ ih => have := ih h; simp; omega
  | case4 => simp at h
  | case5 _ _ _ _ _ _ ih => have := ih h; simp; omega
  | case6 => simp at h
  | case7 => simp at h
  | case8 _ _ _ _ _ _ _ ih => have := ih h; simp; omega

/-- Joins pairs of units; a half that stands alone becomes the replacement character. -/
def joinUnits : List Nat → List Char
  | [] => []
  | [a] => [if 0xD800 ≤ a ∧ a < 0xE000 then '\ufffd' else Char.ofNat a]
  | a :: b :: r =>
    if 0xD800 ≤ a ∧ a < 0xDC00 ∧ 0xDC00 ≤ b ∧ b < 0xE000 then
      Char.ofNat (0x10000 + (a - 0xD800) * 0x400 + (b - 0xDC00)) :: joinUnits r
    else
      (if 0xD800 ≤ a ∧ a < 0xE000 then '\ufffd' else Char.ofNat a) :: joinUnits (b :: r)

def isDigit (c : Char) : Bool := '0' ≤ c && c ≤ '9'

def digitsValue (ds : List Char) : Nat :=
  ds.foldl (fun n c => n * 10 + (c.toNat - '0'.toNat)) 0

def isNumberChar (c : Char) : Bool :=
  isDigit c || c = '-' || c = '+' || c = '.' || c = 'e' || c = 'E'

def exponent? : List Char → Option Int
  | e :: r =>
    if e = 'e' ∨ e = 'E' then
      let (negative, ds) := match r with
        | '-' :: ds => (true, ds)
        | '+' :: ds => (false, ds)
        | ds => (false, ds)
      if ds.isEmpty || !ds.all isDigit then none
      else some (if negative then -(digitsValue ds : Int) else digitsValue ds)
    else none
  | [] => none

/-- A whole number, or a decimal if there is a point or an exponent. -/
def number? (s : List Char) : Option Value :=
  let (negative, s) := match s with
    | '-' :: r => (true, r)
    | r => (false, r)
  let whole := s.takeWhile isDigit
  let rest := s.dropWhile isDigit
  if whole.isEmpty || (whole.head? = some '0' && whole.length > 1) then none else
    let signed (n : Nat) : Int := if negative then -(n : Int) else n
    match rest with
    | [] => some (.int (signed (digitsValue whole)))
    | '.' :: r =>
      let fraction := r.takeWhile isDigit
      if fraction.isEmpty then none else
        let m := digitsValue (whole ++ fraction)
        let e : Int := -(fraction.length : Int)
        match r.dropWhile isDigit with
        | [] => some (.decimal (.finite negative m e))
        | tail => (exponent? tail).map fun x => .decimal (.finite negative m (e + x))
    | tail => (exponent? tail).map fun x => .decimal (.finite negative (digitsValue whole) x)

/-- Cuts a text into tokens; `acc` holds those before it, the latest first. -/
def tokens (acc : List Token) (s : List Char) : Option (List Token) :=
  match s with
  | [] => some acc.reverse
  | '[' :: r => tokens (.openList :: acc) r
  | ']' :: r => tokens (.closeList :: acc) r
  | '\x7b' :: r => tokens (.openObject :: acc) r
  | '\x7d' :: r => tokens (.closeObject :: acc) r
  | ',' :: r => tokens (.comma :: acc) r
  | ':' :: r => tokens (.colon :: acc) r
  | 't' :: 'r' :: 'u' :: 'e' :: r => tokens (.scalar (.bool true) :: acc) r
  | 'f' :: 'a' :: 'l' :: 's' :: 'e' :: r => tokens (.scalar (.bool false) :: acc) r
  | 'n' :: 'u' :: 'l' :: 'l' :: r => tokens (.scalar .null :: acc) r
  | 'N' :: 'a' :: 'N' :: r => tokens (.scalar (.decimal .notNumber) :: acc) r
  | 'I' :: 'n' :: 'f' :: 'i' :: 'n' :: 'i' :: 't' :: 'y' :: r =>
    tokens (.scalar (.decimal (.infinite false)) :: acc) r
  | '-' :: 'I' :: 'n' :: 'f' :: 'i' :: 'n' :: 'i' :: 't' :: 'y' :: r =>
    tokens (.scalar (.decimal (.infinite true)) :: acc) r
  | '"' :: r =>
    match _h : scanString [] r with
    | some (units, rest) =>
      tokens (.string (String.ofList (joinUnits units.reverse)) :: acc) rest
    | none => none
  | c :: r =>
    if isSpace c then tokens acc r
    else if isNumberChar c then
      match number? (c :: r.takeWhile isNumberChar) with
      | some v => tokens (.scalar v :: acc) (r.dropWhile isNumberChar)
      | none => none
    else none
termination_by s.length
decreasing_by
  all_goals simp only [List.length_cons]
  all_goals try omega
  · have := length_of_scanString ‹_›; omega
  · exact Nat.lt_succ_of_le (List.dropWhile_sublist _).length_le

end Enfold.Json
