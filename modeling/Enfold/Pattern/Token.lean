import Enfold.Pattern.Basic
import Enfold.Text.Identifier

/-! # Tokens of a written pattern

A written pattern is cut into single characters and sets, conditions on a place, repetitions, bars
and parentheses. What cannot be cut is no pattern.
-/

namespace Enfold.Pattern

structure FlagChange where
  on : List Char := []
  off : List Char := []
  deriving Repr

inductive Opening where
  | group
  | named (name : String)
  | flagged (change : FlagChange)
  | ahead (negated : Bool)
  | behind (negated : Bool)
  deriving Repr

inductive Token where
  | char (test : CharTest)
  | anchor (a : Anchor)
  | repetition (min : Nat) (max : Option Nat)
  | bar
  | opening (o : Opening)
  | closing
  /-- Flags for the whole pattern. -/
  | flags (on : List Char)
  /-- A remark, which means nothing. -/
  | remark
  deriving Repr

/-- A reader of the start of a text, which returns the rest. -/
abbrev Scan (α : Type) := List Char → Option (α × List Char)

def hexDigit? (c : Char) : Option Nat :=
  if Text.isAsciiDigit c then some (c.toNat - '0'.toNat)
  else if 'a' ≤ c ∧ c ≤ 'f' then some (c.toNat - 'a'.toNat + 10)
  else if 'A' ≤ c ∧ c ≤ 'F' then some (c.toNat - 'A'.toNat + 10)
  else none

def hexChar (n : Nat) : Scan Char := fun s => do
  let digits ← (s.take n).mapM hexDigit?
  let code := digits.foldl (fun acc d => acc * 16 + d) 0
  if digits.length = n ∧ code.isValidChar then some (Char.ofNat code, s.drop n) else none

def isOctal (c : Char) : Bool := '0' ≤ c && c ≤ '7'

def octalValue (digits : List Char) : Nat :=
  digits.foldl (fun acc c => acc * 8 + (c.toNat - '0'.toNat)) 0

def controlEscape? : Char → Option Char
  | 'a' => some '\x07'
  | 'f' => some '\x0c'
  | 'n' => some '\n'
  | 'r' => some '\r'
  | 't' => some '\t'
  | 'v' => some '\x0b'
  | '\\' => some '\\'
  | _ => none

def categoryEscape? : Char → Option SetItem
  | 'd' => some (.category .digit false)
  | 'D' => some (.category .digit true)
  | 's' => some (.category .blank false)
  | 'S' => some (.category .blank true)
  | 'w' => some (.category .word false)
  | 'W' => some (.category .word true)
  | _ => none

def anchorEscape? : Char → Option Anchor
  | 'A' => some .textStart
  | 'Z' => some .textEnd
  | 'b' => some .wordEdge
  | 'B' => some .noWordEdge
  | _ => none

/-- A character by its code, or one that is no letter and stands for itself. -/
def codeEscape (c : Char) : Scan Char := fun r =>
  match c with
  | 'x' => hexChar 2 r
  | 'u' => hexChar 4 r
  | 'U' => hexChar 8 r
  | _ => if Text.isAsciiLetter c || Text.isAsciiDigit c then none else some (c, r)

def scanEscape : Scan Token
  | [] => none
  | c :: r =>
    if let some a := anchorEscape? c then some (.anchor a, r)
    else if let some item := categoryEscape? c then some (.char (.set [item] false), r)
    else if let some a := controlEscape? c then some (.char (.char a), r)
    else if c = '0' then
      let more := (r.take 2).takeWhile isOctal
      some (.char (.char (Char.ofNat (octalValue more))), r.drop more.length)
    else if Text.isAsciiDigit c then
      let digits := c :: (r.take 2).takeWhile isOctal
      if isOctal c ∧ digits.length = 3 ∧ octalValue digits ≤ 255 then
        some (.char (.char (Char.ofNat (octalValue digits))), r.drop 2)
      else none
    else (codeEscape c r).map fun e => (.char (.char e.1), e.2)

def scanSetEscape : Scan SetItem
  | [] => none
  | c :: r =>
    if let some item := categoryEscape? c then some (item, r)
    else if c = 'b' then some (.char '\x08', r)
    else if let some a := controlEscape? c then some (.char a, r)
    else if isOctal c then
      let digits := c :: (r.take 2).takeWhile isOctal
      if octalValue digits ≤ 255 then
        some (.char (Char.ofNat (octalValue digits)), r.drop (digits.length - 1))
      else none
    else (codeEscape c r).map fun e => (.char e.1, e.2)

def scanSetItem : Scan SetItem
  | [] => none
  | '\\' :: r => scanSetEscape r
  | c :: r => some (.char c, r)

/-- Reads a set, to which a closing bracket belongs if it comes first. -/
def scanSet (items : List SetItem) (s : List Char) : Option (List SetItem × List Char) :=
  match s with
  | [] => none
  | c :: r =>
    if c = ']' && !items.isEmpty then some (items, r)
    else match scanSetItem (c :: r) with
      | none => none
      | some (item, rest) =>
        match rest with
        | '-' :: ']' :: rest => some (items ++ [item, .char '-'], rest)
        | '-' :: rest =>
          match item, scanSetItem rest with
          | .char a, some (.char b, rest) =>
            if b < a then none
            else if rest.length ≤ r.length then scanSet (items ++ [.range a b]) rest else none
          | _, _ => none
        | rest => if rest.length ≤ r.length then scanSet (items ++ [item]) rest else none
termination_by s.length

def readNumber (digits : List Char) : Nat :=
  digits.foldl (fun acc c => acc * 10 + (c.toNat - '0'.toNat)) 0

/-- No repetition has a bound beyond this. -/
def greatestBound : Nat := 4294967294

/-- The bounds of a repetition; without a closing brace the opening one stands for itself. -/
def scanBounds (s : List Char) : Option (Token × List Char) :=
  let literal := some (Token.char (.char '\x7b'), s)
  let low := s.takeWhile Text.isAsciiDigit
  let rest := s.drop low.length
  let (high, rest) := match rest with
    | ',' :: r => (r.takeWhile Text.isAsciiDigit, r.dropWhile Text.isAsciiDigit)
    | r => (low, r)
  match rest with
  | '\x7d' :: rest =>
    if s.head? = some '\x7d' then literal
    else
      let min := readNumber low
      let max := if high.isEmpty then none else some (readNumber high)
      if min ≤ greatestBound ∧ (max.map fun n => decide (min ≤ n ∧ n ≤ greatestBound)).getD true then
        some (.repetition min max, rest)
      else none
  | _ => literal

def flagLetters : List Char := ['i', 'm', 's', 'u']

/-- Flags for the whole pattern before a parenthesis, for a group before a colon. -/
def scanFlags (s : List Char) : Option (Token × List Char) :=
  let isFlag (c : Char) : Bool := flagLetters.contains c
  let on := s.takeWhile isFlag
  match s.dropWhile isFlag with
  | ')' :: r => if on.isEmpty then none else some (.flags on, r)
  | ':' :: r => some (.opening (.flagged ⟨on, []⟩), r)
  | '-' :: r =>
    let off := r.takeWhile isFlag
    match r.dropWhile isFlag with
    | ':' :: r =>
      if off.isEmpty || off.contains 'u' || off.any on.contains then none
      else some (.opening (.flagged ⟨on, off⟩), r)
    | _ => none
  | _ => none

def scanOpening : Scan Token
  | '?' :: ':' :: r => some (.opening .group, r)
  | '?' :: '=' :: r => some (.opening (.ahead false), r)
  | '?' :: '!' :: r => some (.opening (.ahead true), r)
  | '?' :: '<' :: '=' :: r => some (.opening (.behind false), r)
  | '?' :: '<' :: '!' :: r => some (.opening (.behind true), r)
  | '?' :: '#' :: r =>
    match Text.cutAt ')' r with
    | (_, some rest) => some (.remark, rest)
    | (_, none) => none
  | '?' :: 'P' :: '<' :: r =>
    match Text.cutAt '>' r with
    | (name, some rest) =>
      if Text.isIdentifier name then some (.opening (.named (String.ofList name)), rest) else none
    | (_, none) => none
  | '?' :: r => scanFlags r
  | r => some (.opening .group, r)

/-- A repetition may be marked as lazy, which makes no difference to whole texts. -/
def skipLazy : Token × List Char → Token × List Char
  | (.repetition min max, '?' :: r) => (.repetition min max, r)
  | t => t

def scanToken : Scan Token
  | [] => none
  | '\\' :: r => scanEscape r
  | '[' :: '^' :: r => (scanSet [] r).map fun e => (.char (.set e.1 true), e.2)
  | '[' :: r => (scanSet [] r).map fun e => (.char (.set e.1 false), e.2)
  | '*' :: r => some (skipLazy (.repetition 0 none, r))
  | '+' :: r => some (skipLazy (.repetition 1 none, r))
  | '?' :: r => some (skipLazy (.repetition 0 (some 1), r))
  | '\x7b' :: r => (scanBounds r).map skipLazy
  | '.' :: r => some (.char .anyChar, r)
  | '^' :: r => some (.anchor .start, r)
  | '$' :: r => some (.anchor .finish, r)
  | '|' :: r => some (.bar, r)
  | '(' :: r => scanOpening r
  | ')' :: r => some (.closing, r)
  | c :: r => some (.char (.char c), r)

def tokens? (s : List Char) : Option (List Token) :=
  if s.isEmpty then some [] else
    match scanToken s with
    | none => none
    | some (t, rest) => if rest.length < s.length then (tokens? rest).map (t :: ·) else none
termination_by s.length

end Enfold.Pattern
