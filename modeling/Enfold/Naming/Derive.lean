import Enfold.Naming.Sanitize
import Enfold.Naming.Suffix

/-! # Names for wrappers

A wrapper class is named after the collection of the elements that it gathers, the slot that
refers to it after the class, and the field that holds the items after the element. A name that
was asked for explicitly is taken as it is, unless it is reserved.
-/

namespace Enfold

/-- The tables and the limit by which names are derived. -/
structure Naming where
  escapes : Naming.Escapes := Naming.defaultEscapes
  pluralizer : Naming.Pluralizer := Naming.Pluralizer.default
  /-- How many suffixes are tried, as it was given. -/
  maxSuffix : Value := .int 9999

namespace Naming

/-- Without a plural form the collection of `x` is `xs`, or `xList` after an s. -/
def collectionName (n : Naming) (element : String) (plural : Bool) : Except NameError String :=
  if plural then n.pluralizer.pluralize element
  else if element.toList.getLast? = some 's' then .ok (element ++ "List")
  else .ok (element ++ "s")

def wrapperClassName (n : Naming) (element : String) (plural : Bool) (explicit : Option String) :
    Except NameError String :=
  match explicit.filter (· ≠ "") with
  | some name => .ok (n.escapes.apply name)
  | none => (n.collectionName element plural).map (sanitize n.escapes .pascal)

def referenceFieldName (n : Naming) (className : String) : String :=
  sanitize n.escapes .snake className

def itemFieldName (n : Naming) (element : String) (explicit : Option String) : String :=
  match explicit.filter (· ≠ "") with
  | some name => n.escapes.apply name
  | none => sanitize n.escapes .snake element

end Naming
end Enfold
