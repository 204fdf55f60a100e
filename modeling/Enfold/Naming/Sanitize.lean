import Enfold.Assoc
import Enfold.Text.Blank
import Enfold.Text.Identifier

/-! # Names for generated code

A name found in a schema becomes a name for code: foreign characters turn into underscores, the
words are put into one of two cases, and a reserved word is written with an underscore after it.
-/

namespace Enfold.Naming

inductive Case where
  | snake
  | pascal
  deriving DecidableEq, Repr

def reservedWords : List String :=
  ["False", "None", "True", "and", "as", "assert", "async", "await", "break", "class", "continue",
    "def", "del", "elif", "else", "except", "finally", "for", "from", "global", "if", "import",
    "in", "is", "lambda", "nonlocal", "not", "or", "pass", "raise", "return", "try", "while",
    "with", "yield"]

def builtinTypes : List String :=
  ["bool", "bytes", "dict", "float", "int", "list", "object", "set", "str", "tuple", "type"]

abbrev Escapes := Assoc String String

def defaultEscapes : Escapes := (reservedWords ++ builtinTypes).map fun w => (w, w ++ "_")

def Escapes.apply (e : Escapes) (name : String) : String := (Assoc.get? name e).getD name

def isNameChar (c : Char) : Bool := Text.isIdentifierChar c || c = '-'

/-- Underscores for foreign characters, none at the ends but before a digit, or `field`. -/
def clean (s : List Char) : List Char :=
  let kept := Text.trimWhere (fun c => c = '_' || c = '-')
    (s.map fun c => if isNameChar c then c else '_')
  match kept with
  | [] => "field".toList
  | c :: _ => if Text.isAsciiDigit c then '_' :: kept else kept

/-- Parts a capital from a small letter or digit before it. -/
def separateWords : List Char → List Char
  | a :: b :: r =>
    if (Text.isAsciiLower a || Text.isAsciiDigit a) && Text.isAsciiUpper b then
      a :: '_' :: separateWords (b :: r)
    else a :: separateWords (b :: r)
  | s => s

def collapseUnderscores : List Char → List Char
  | a :: b :: r =>
    if a = '_' && b = '_' then collapseUnderscores (b :: r) else a :: collapseUnderscores (b :: r)
  | s => s

/-- Small letters with single underscores between the words. -/
def toSnake (s : List Char) : List Char :=
  let parted := separateWords (s.map fun c => if c = '-' then '_' else c)
  Text.trimWhere (· = '_') (collapseUnderscores (parted.map Char.toLower))

def capitalize : List Char → List Char
  | [] => []
  | c :: r => c.toUpper :: r

/-- The words of the small-letter form, each with a capital, without anything between them. -/
def toPascal (s : List Char) : List Char := (Text.splitAt '_' (toSnake s)).flatMap capitalize

def toCase : Case → List Char → List Char
  | .snake => toSnake
  | .pascal => toPascal

def sanitize (escapes : Escapes) (case : Case) (name : String) : String :=
  escapes.apply (String.ofList (toCase case (clean name.toList)))

end Enfold.Naming
