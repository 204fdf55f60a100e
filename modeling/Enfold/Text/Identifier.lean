/-! # Identifiers

Identifiers are made of ASCII letters, digits and underscores and do not start with a digit.
-/

namespace Enfold.Text

def isAsciiLower (c : Char) : Bool := 'a' ≤ c && c ≤ 'z'

def isAsciiUpper (c : Char) : Bool := 'A' ≤ c && c ≤ 'Z'

def isAsciiDigit (c : Char) : Bool := '0' ≤ c && c ≤ '9'

def isAsciiLetter (c : Char) : Bool := isAsciiLower c || isAsciiUpper c

def isIdentifierStart (c : Char) : Bool := isAsciiLetter c || c = '_'

def isIdentifierChar (c : Char) : Bool := isIdentifierStart c || isAsciiDigit c

def isIdentifier : List Char → Bool
  | [] => false
  | c :: r => isIdentifierStart c && r.all isIdentifierChar

def splitAt (sep : Char) : List Char → List (List Char)
  | [] => [[]]
  | c :: r =>
    if c = sep then [] :: splitAt sep r
    else match splitAt sep r with
      | [] => [[c]]
      | part :: parts => (c :: part) :: parts

def isDottedName (s : List Char) : Bool := (splitAt '.' s).all isIdentifier

/-- What precedes the first `sep` and what follows it; without one the whole text precedes. -/
def cutAt (sep : Char) : List Char → List Char × Option (List Char)
  | [] => ([], none)
  | c :: r => if c = sep then ([], some r) else
    let (before, after) := cutAt sep r
    (c :: before, after)

/-- What precedes the last `sep` and what follows it; without one the whole text follows. -/
def cutAtLast (sep : Char) (s : List Char) : Option (List Char) × List Char :=
  let (after, before) := cutAt sep s.reverse
  (before.map List.reverse, after.reverse)

end Enfold.Text
