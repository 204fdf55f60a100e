import Enfold.Model.Property

/-! # Models

A model holds the classes that are to be generated, with their properties. Classes and properties
keep the place at which they were created for as long as the model lives, so that a link to one of
them stays good whatever is renamed or moved. Classes nest: the parent of a class was always
created before it.
-/

namespace Enfold

structure ClassDecl where
  name : String
  package : Option String := some ""
  properties : List PropertyId := []
  /-- The class that this one is nested in. -/
  parent : Option ClassId := none
  /-- The class that this one extends. -/
  base : Option ClassId := none
  source : Option String := none
  customization : Value := .null
  implementation : Option String := none
  isWrapper : Bool := false
  /-- The element that the class is bound to, if it is not the one of its name. -/
  element : Option String := none
  description : Option String := none
  deriving Repr, Inhabited

/-- The classes that a later run may reuse, by qualified name and in order. -/
structure Episode where
  refs : List String := []
  deriving DecidableEq, Repr, Inhabited

namespace Episode

def contains (e : Episode) (ref : String) : Bool := e.refs.contains ref

def add (e : Episode) (ref : String) : Episode :=
  if e.contains ref then e else ⟨e.refs ++ [ref]⟩

/-- The episode of a list, with each reference where it first stands. -/
def ofList (refs : List String) : Episode := refs.foldl add ⟨[]⟩

def remove (e : Episode) (ref : String) : Episode := ⟨e.refs.filter (· ≠ ref)⟩

def rename (e : Episode) (old new : String) : Episode :=
  if e.contains old then ofList (e.refs.map fun r => if r = old then new else r) else e

end Episode

/-- The implementations of a package by the qualified names of their interfaces. -/
abbrev Factory := Assoc String String

structure Model where
  classes : Array ClassDecl := #[]
  properties : Array Property := #[]
  episode : Option Episode := none
  /-- The factories by package. -/
  factories : Assoc (Option String) Factory := []
  deriving Inhabited

namespace Model

def decl (m : Model) (c : ClassId) : ClassDecl := (m.classes[c.index]?).getD default

def prop (m : Model) (p : PropertyId) : Property := (m.properties[p.index]?).getD default

def classIds (m : Model) : List ClassId := (List.range m.classes.size).map ClassId.mk

def modifyClass (m : Model) (c : ClassId) (f : ClassDecl → ClassDecl) : Model :=
  { m with classes := m.classes.modify c.index f }

def modifyProperty (m : Model) (p : PropertyId) (f : Property → Property) : Model :=
  { m with properties := m.properties.modify p.index f }

@[simp] theorem classes_modifyProperty (m : Model) (p : PropertyId) (f : Property → Property) :
    (m.modifyProperty p f).classes = m.classes := rfl

@[simp] theorem properties_modifyClass (m : Model) (c : ClassId) (f : ClassDecl → ClassDecl) :
    (m.modifyClass c f).properties = m.properties := rfl

@[simp] theorem decl_modifyProperty (m : Model) (p : PropertyId) (f : Property → Property)
    (c : ClassId) : (m.modifyProperty p f).decl c = m.decl c := rfl

@[simp] theorem prop_modifyClass (m : Model) (c : ClassId) (f : ClassDecl → ClassDecl)
    (p : PropertyId) : (m.modifyClass c f).prop p = m.prop p := rfl

theorem decl_modifyClass_of_ne {c d : ClassId} (h : d ≠ c) (m : Model)
    (f : ClassDecl → ClassDecl) : (m.modifyClass c f).decl d = m.decl d := by
  have : c.index ≠ d.index := fun e => h (by cases c; cases d; simp_all)
  simp [decl, modifyClass, Array.getElem?_modify, this]

theorem decl_modifyClass_self {c : ClassId} {m : Model} (h : c.index < m.classes.size)
    (f : ClassDecl → ClassDecl) : (m.modifyClass c f).decl c = f (m.decl c) := by
  simp [decl, modifyClass, h, Array.getElem_modify_self]

theorem prop_modifyProperty_of_ne {p q : PropertyId} (h : q ≠ p) (m : Model)
    (f : Property → Property) : (m.modifyProperty p f).prop q = m.prop q := by
  have : p.index ≠ q.index := fun e => h (by cases p; cases q; simp_all)
  simp [prop, modifyProperty, Array.getElem?_modify, this]

theorem prop_modifyProperty_self {p : PropertyId} {m : Model} (h : p.index < m.properties.size)
    (f : Property → Property) : (m.modifyProperty p f).prop p = f (m.prop p) := by
  simp [prop, modifyProperty, h, Array.getElem_modify_self]

end Model
end Enfold
