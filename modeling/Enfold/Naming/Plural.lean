import Enfold.Assoc
import Enfold.Text.Case
import Enfold.Text.Identifier

/-! # Plurals

The plural of a name changes its last word only. Tables of irregular and of uncountable nouns
come first, then the endings decide. A word that is a plural already stays as it is.
-/

namespace Enfold.Naming

structure Pluralizer where
  /-- From singular to plural, in small letters. -/
  irregular : Assoc String String
  /-- Nouns that have no plural, in small letters. -/
  uncountable : List String
  deriving Repr

def irregularNouns : Assoc String String :=
  [("child", "children"), ("person", "people"), ("man", "men"), ("woman", "women"),
    ("mouse", "mice"), ("goose", "geese"), ("foot", "feet"), ("tooth", "teeth"), ("ox", "oxen"),
    ("datum", "data"), ("medium", "media"), ("index", "indices"), ("matrix", "matrices"),
    ("vertex", "vertices"), ("criterion", "criteria"), ("phenomenon", "phenomena"),
    ("leaf", "leaves"), ("life", "lives"), ("knife", "knives"), ("wife", "wives"),
    ("half", "halves"), ("shelf", "shelves")]

def uncountableNouns : List String :=
  ["information", "equipment", "data", "metadata", "news", "series", "species", "software",
    "hardware", "feedback", "content", "text"]

inductive NameError where
  /-- The plural of a capitalized word is empty, so there is no letter to capitalize. -/
  | emptyPlural
  /-- The name and every suffixed form of it are taken. -/
  | exhausted (name scope limit : String)
  /-- The number of suffixes to try is not a whole number. -/
  | limitNotWhole
  deriving DecidableEq, Repr

namespace NameError

def message : NameError → String
  | emptyPlural => "string index out of range"
  | exhausted name scope limit =>
    "Cannot find a free name for '" ++ name ++ "' in scope '" ++ scope ++ "' after " ++ limit ++
      " attempts"
  | limitNotWhole => "not a whole number"

end NameError

namespace Pluralizer

def default : Pluralizer := ⟨irregularNouns, uncountableNouns⟩

/-- The default tables with further entries, which win over the entries that are there. -/
def extended (irregular : Assoc String String) (uncountable : List String) : Pluralizer where
  irregular := Assoc.merge irregularNouns
    (Assoc.ofList (irregular.map fun e => (Text.lower e.1, Text.lower e.2)))
  uncountable := uncountableNouns ++ uncountable.map Text.lower

def isPluralForm (p : Pluralizer) (word : String) : Bool :=
  p.irregular.any fun e => e.2 = word

def isVowel (c : Char) : Bool := "aeiou".toList.contains c

/-- The plural by ending, from the letters of a word in reverse. -/
def byEnding : List Char → List Char
  | 's' :: 'i' :: r => 's' :: 'e' :: r
  | 's' :: 's' :: r => 's' :: 'e' :: 's' :: 's' :: r
  | 's' :: 'u' :: r => 's' :: 'e' :: 's' :: 'u' :: r
  | 's' :: r => 's' :: r
  | 'y' :: c :: r => if isVowel c then 's' :: 'y' :: c :: r else 's' :: 'e' :: 'i' :: c :: r
  | 'x' :: r => 's' :: 'e' :: 'x' :: r
  | 'z' :: r => 's' :: 'e' :: 'z' :: r
  | 'h' :: 'c' :: r => 's' :: 'e' :: 'h' :: 'c' :: r
  | 'h' :: 's' :: r => 's' :: 'e' :: 'h' :: 's' :: r
  | r => 's' :: r

def ofWord (p : Pluralizer) (word : String) : String :=
  if p.uncountable.contains word || p.isPluralForm word then word
  else match Assoc.get? word p.irregular with
    | some plural => plural
    | none => String.ofList (byEnding word.toList.reverse).reverse

/-- Parts a name before its last word and drops a line feed at the end. -/
def splitLastWord (s : List Char) : Option (List Char × List Char) :=
  let body := if s.getLast? = some '\n' then s.dropLast else s
  let inner (c : Char) : Bool := Text.isAsciiLower c || Text.isAsciiDigit c
  let run := (body.reverse.takeWhile inner).reverse
  let before := (body.reverse.dropWhile inner).reverse
  match before.getLast? with
  | some c =>
    if Text.isAsciiUpper c then some (before.dropLast, c :: run) else fromLetter before run
  | none => fromLetter before run
where
  /-- Starts the word at the first letter of the run. -/
  fromLetter (before run : List Char) : Option (List Char × List Char) :=
    match run.dropWhile Text.isAsciiDigit with
    | [] => none
    | word => some (before ++ run.takeWhile Text.isAsciiDigit, word)

/-- The plural of a name, with the capital of its last word kept. -/
def pluralize (p : Pluralizer) (name : String) : Except NameError String :=
  match splitLastWord name.toList with
  | none => .ok name
  | some (head, word) =>
    let plural := (p.ofWord (Text.lower (String.ofList word))).toList
    if (word.head?.map Text.isAsciiUpper).getD false then
      match plural with
      | [] => .error .emptyPlural
      | c :: r => .ok (String.ofList (head ++ Text.upperChar c :: r))
    else .ok (String.ofList (head ++ plural))

/-- Whether the last word of a name is its own plural. -/
def isPlural (p : Pluralizer) (name : String) : Bool :=
  let word := match splitLastWord name.toList with
    | some (_, word) => Text.lower (String.ofList word)
    | none => Text.lower name
  p.ofWord word = word

end Pluralizer
end Enfold.Naming
