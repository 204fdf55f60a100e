import Enfold.Model.Walk

/-! # Views of a model

A view shows a model as a value: its classes in the order of the walk, the episode and the
factories. Links are shown by the names that they lead to, and what says nothing is left out.
-/

namespace Enfold

namespace Value

def ofText? : Option String → Value
  | some s => .text s
  | none => .null

def ofTexts (xs : List String) : Value := .list (xs.map .text)

def saysNothing : Value → Bool
  | .null | .bool false | .object [] => true
  | _ => false

/-- An object without the members that say nothing. -/
def slim (members : List (String × Value)) : Value :=
  .object (members.filter fun m => !m.2.saysNothing)

end Value

namespace Model

variable (m : Model)

def propertyView (id : PropertyId) : Value :=
  let p := m.prop id
  .slim [("name", .text p.name), ("type", .ofText? p.valueType),
    ("type_name", .ofText? (m.typeName id)), ("path", .text (m.path id)),
    ("multiplicity", .text p.multiplicity.name), ("kind", .text p.kind.name),
    ("field", .text p.field), ("nillable", .bool p.nillable), ("required", .bool p.required),
    ("attribute", .bool p.isAttribute), ("description", .ofText? p.description),
    ("adapter", .ofText? p.adapter), ("implementation_type", .ofText? p.implementationType),
    ("substitutes", .object (p.substitutes.map fun e => (e.1, .ofText? e.2))),
    ("customization", p.customization),
    ("collection_kind", .ofText? (p.collectionKind.map CollectionKind.name)),
    ("collection_type", .ofText? p.collectionType),
    ("collection_interface", p.collectionInterface),
    ("instantiation", .ofText? (p.instantiation.map Instantiation.name)),
    ("synthetic", .bool p.synthetic),
    ("reference", .ofText? (p.reference.map m.qualifiedName))]

def classView (c : ClassId) : Value :=
  let d := m.decl c
  .slim [("name", .text d.name), ("package", .ofText? d.package),
    ("qualified_name", .text (m.qualifiedName c)), ("scope", .ofText? (m.scope c)),
    ("local_name", .text (m.localName c)), ("parent", .ofText? (d.parent.map m.qualifiedName)),
    ("base", .ofText? (d.base.map m.qualifiedName)), ("source", .ofText? d.source),
    ("customization", d.customization), ("implementation", .ofText? d.implementation),
    ("is_wrapper", .bool d.isWrapper), ("element", .ofText? d.element),
    ("description", .ofText? d.description),
    ("properties", .list (d.properties.map m.propertyView))]

def factoryView (f : Factory) : Value := .list (f.map fun e => .ofTexts [e.1, e.2])

def view : Value :=
  .object [("classes", .list (m.walk.map m.classView)),
    ("episode", match m.episode with
      | some e => .ofTexts e.refs
      | none => .null),
    ("factories", .object (m.factories.map fun f => (f.1.getD "null", factoryView f.2)))]

end Model
end Enfold
