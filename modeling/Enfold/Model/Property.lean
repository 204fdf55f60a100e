import Enfold.Collection

/-! # Properties

A property is one member of a class: an attribute or the content of child elements. It may hold
one value or many, and content that is open-ended holds many whatever is declared.
-/

namespace Enfold

/-- A class of a model, by the order of creation. -/
structure ClassId where
  index : Nat
  deriving DecidableEq, Repr, Inhabited

/-- A property of a model, by the order of creation. -/
structure PropertyId where
  index : Nat
  deriving DecidableEq, Repr, Inhabited

inductive ContentKind where
  | element
  /-- Elements of any name. -/
  | any
  /-- Text between the elements. -/
  | mixed
  /-- The head of a group of elements that may stand for one another. -/
  | reference
  deriving DecidableEq, Repr, Inhabited

namespace ContentKind

def name : ContentKind → String
  | element => "element"
  | any => "any"
  | mixed => "mixed"
  | reference => "reference"

def ofName? (s : String) : Option ContentKind :=
  [element, any, mixed, reference].find? (·.name = s)

/-- Open-ended content holds many values whatever is declared. -/
def isOpenEnded : ContentKind → Bool
  | any | reference => true
  | element | mixed => false

end ContentKind

inductive Multiplicity where
  | single
  | repeated
  deriving DecidableEq, Repr, Inhabited

namespace Multiplicity

def name : Multiplicity → String
  | single => "single"
  | repeated => "repeated"

def ofName? (s : String) : Option Multiplicity := [single, repeated].find? (·.name = s)

end Multiplicity

structure Property where
  /-- The name of the element or attribute. -/
  name : String
  valueType : Option String
  multiplicity : Multiplicity := .single
  kind : ContentKind := .element
  /-- The name under which an object holds the value. -/
  field : String := name
  nillable : Bool := false
  required : Bool := false
  isAttribute : Bool := false
  description : Option String := none
  adapter : Option String := none
  /-- The implementation behind the type, where interfaces are kept apart. -/
  implementationType : Option String := none
  /-- The types of the elements that may stand for this one, by their names. -/
  substitutes : Assoc String (Option String) := []
  customization : Value := .null
  /-- How a wrapped field holds its items; nothing for all other fields. -/
  collectionKind : Option CollectionKind := none
  collectionType : Option String := none
  collectionInterface : Value := .null
  instantiation : Option Instantiation := none
  /-- The wrapper that the property refers to in place of its former content. -/
  reference : Option ClassId := none
  /-- Made by a pass, with nothing in the schema behind it. -/
  synthetic : Bool := false
  owner : Option ClassId := none
  deriving Repr, Inhabited

namespace Property

def isMultiValued (p : Property) : Bool :=
  !p.isAttribute && !p.synthetic && p.reference.isNone &&
    (p.multiplicity = .repeated || p.kind.isOpenEnded)

end Property
end Enfold
