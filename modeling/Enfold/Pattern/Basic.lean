import Enfold.Text.Blank
import Enfold.Text.Case
import Enfold.Text.Word

/-! # Patterns

A pattern describes texts as a whole. Matching follows the set of places that the pattern can lead
to, so which of two alternatives is tried first, or how greedy a repetition is, does not matter.
-/

namespace Enfold

namespace Pattern

/-- A class of characters that has a short name. -/
inductive Category where
  | digit
  | blank
  | word
  deriving DecidableEq, Repr

def Category.holds : Category → Char → Bool
  | digit => Text.isDecimalDigit
  | blank => Text.isBlank
  | word => Text.isWordChar

inductive SetItem where
  | char (c : Char)
  | range (first last : Char)
  | category (k : Category) (negated : Bool)
  deriving DecidableEq, Repr

/-- What a single character is tested for. -/
inductive CharTest where
  | char (c : Char)
  | anyChar
  | set (items : List SetItem) (negated : Bool)
  deriving DecidableEq, Repr

/-- How characters and line ends are taken. -/
structure Flags where
  ignoreCase : Bool := false
  /-- Every character counts as any character, a line feed as well. -/
  dotAll : Bool := false
  /-- Lines have starts and ends of their own. -/
  multiline : Bool := false
  deriving DecidableEq, Repr

inductive Anchor where
  | start
  | finish
  | textStart
  | textEnd
  | wordEdge
  | noWordEdge
  deriving DecidableEq, Repr

end Pattern

inductive Pattern where
  | empty
  | char (flags : Pattern.Flags) (test : Pattern.CharTest)
  | anchor (flags : Pattern.Flags) (a : Pattern.Anchor)
  | seq (p q : Pattern)
  | alt (p q : Pattern)
  /-- At least `min` times and at most `max` times, if there is a bound. -/
  | repetition (min : Nat) (max : Option Nat) (p : Pattern)
  /-- What follows the place `back` characters before must match, or must not. -/
  | look (back : Nat) (negated : Bool) (p : Pattern)
  deriving Repr

namespace Pattern

/-- The small letter of a character, if it has a single one. -/
def smallLetter (c : Char) : Char := (Text.lowerChars c).headD c

def SetItem.holds (flags : Flags) (c : Char) : SetItem → Bool
  | char a => if flags.ignoreCase then smallLetter a = smallLetter c else a = c
  | range a b =>
    if flags.ignoreCase then
      let small := smallLetter c
      let capital := Text.upperChar small
      (a ≤ small && small ≤ b) || (a ≤ capital && capital ≤ b)
    else a ≤ c && c ≤ b
  | category k negated => k.holds c != negated

def CharTest.holds (flags : Flags) (c : Char) : CharTest → Bool
  | char a => SetItem.holds flags c (.char a)
  | anyChar => flags.dotAll || c ≠ '\n'
  | set items negated => (items.any (SetItem.holds flags c)) != negated

variable (s : Array Char)

def isWordAt (i : Nat) : Bool := (s[i]?.map Text.isWordChar).getD false

def isEdge (i : Nat) : Bool := (i ≠ 0 && isWordAt s (i - 1)) != isWordAt s i

def Anchor.holds (flags : Flags) (i : Nat) : Anchor → Bool
  | start => i = 0 || (flags.multiline && s[i - 1]? = some '\n')
  | finish =>
    i = s.size || (i + 1 = s.size && s[i]? = some '\n') || (flags.multiline && s[i]? = some '\n')
  | textStart => i = 0
  | textEnd => i = s.size
  | wordEdge => isEdge s i
  | noWordEdge => !s.isEmpty && !isEdge s i

/-- Applies a step `n` times, as long as there are places to go on from. -/
def times (step : List Nat → List Nat) : Nat → List Nat → List Nat
  | 0, places => places
  | n + 1, places => if places.isEmpty then [] else times step n (step places)

/-- The places that at most `n` more steps lead to, besides those reached before. -/
def closure (step : List Nat → List Nat) : Nat → (reached frontier : List Nat) → List Nat
  | 0, reached, _ => reached
  | n + 1, reached, frontier =>
    let new := (step frontier).filter fun i => !reached.contains i
    if new.isEmpty then reached else closure step n (reached ++ new) new

/-- The places that a pattern leads to from some places. -/
def reach : Pattern → List Nat → List Nat
  | empty, places => places
  | char flags test, places =>
    (places.filter fun i => (s[i]?.map (CharTest.holds flags · test)).getD false).map (· + 1)
  | anchor flags a, places => places.filter fun i => a.holds s flags i
  | seq p q, places => reach q (reach p places)
  | alt p q, places => (reach p places ++ reach q places).eraseDups
  | repetition min max p, places =>
    let first := times (fun l => reach p l) min places
    let more := match max with
      | some n => n - min
      | none => s.size + 1
    closure (fun l => reach p l) more first first
  | look back negated p, places =>
    places.filter fun i => (if i < back then true else (reach p [i - back]).isEmpty) == negated

/-- The fewest characters that a pattern describes, and the most if there is a bound. -/
def widths : Pattern → Nat × Option Nat
  | empty | anchor .. | look .. => (0, some 0)
  | char .. => (1, some 1)
  | seq p q => (p.widths.1 + q.widths.1, do return (← p.widths.2) + (← q.widths.2))
  | alt p q => (min p.widths.1 q.widths.1, do return max (← p.widths.2) (← q.widths.2))
  | repetition least most p =>
    (least * p.widths.1,
      if p.widths.2 = some 0 then some 0 else do return (← most) * (← p.widths.2))

def fixedWidth? (p : Pattern) : Option Nat :=
  if p.widths.2 = some p.widths.1 then some p.widths.1 else none

def accepts (p : Pattern) (text : String) : Bool :=
  let s := text.toList.toArray
  (reach s p [0]).contains s.size

end Pattern
end Enfold
