import Enfold.Model.Edit
import Enfold.Model.Raw

/-! # Descriptions of classes

The classes of a model are named by texts, and so are their packages and types. What a description
says is taken over if that is so of all its entries.
-/

namespace Enfold

/-- A text, or nothing. -/
def Value.textOrNull? : Value → Option (Option String)
  | null => some none
  | text s => some (some s)
  | bool _ | int _ | decimal _ | list _ | object _ => none

structure ClassEntry where
  name : String
  /-- The package, if the entry names one; it may also say that there is none. -/
  package : Option (Option String) := none
  properties : List Property := []
  source : Option String := none
  customization : Value := .null
  implementation : Option String := none
  element : Option String := none
  /-- The qualified name of the class that is extended. -/
  base : Value := .null
  deriving Inhabited

/-- The class of an entry without its properties, in its own package or the one given. -/
def ClassEntry.decl (e : ClassEntry) (package : Option String) : ClassDecl where
  name := e.name
  package := e.package.getD package
  source := e.source
  customization := e.customization
  implementation := e.implementation
  element := e.element

inductive ClassTree where
  | node (entry : ClassEntry) (nested : List ClassTree)
  deriving Inhabited

structure Description where
  package : Option String
  episode : Option (List String)
  classes : List ClassTree

/-! ### Entries of texts -/

namespace Raw

def letteredPair? (e : Value × Value) : Option (String × Option String) := do
  return (← e.1.asText?, ← e.2.textOrNull?)

def Property.lettered? (p : Property) : Option Enfold.Property := do
  return {
    name := ← p.name.asText?
    valueType := ← p.valueType.textOrNull?
    multiplicity := p.multiplicity
    kind := p.kind
    field := ← p.field.asText?
    nillable := p.nillable
    required := p.required
    isAttribute := p.isAttribute
    adapter := ← p.adapter.textOrNull?
    implementationType := ← p.implementationType.textOrNull?
    substitutes := ← p.substitutes.mapM letteredPair?
    customization := p.customization }

def ClassEntry.lettered? (e : ClassEntry) : Option Enfold.ClassEntry := do
  return {
    name := ← e.name.asText?
    package := ← e.package.mapM Value.textOrNull?
    properties := ← e.properties.mapM Property.lettered?
    source := ← e.source.textOrNull?
    customization := e.customization
    implementation := ← e.implementation.textOrNull?
    element := ← e.element.textOrNull?
    base := e.base }

mutual

def ClassTree.lettered? : ClassTree → Option Enfold.ClassTree
  | .node e nested => do return .node (← e.lettered?) (← letteredTrees? nested)

def letteredTrees? : List ClassTree → Option (List Enfold.ClassTree)
  | [] => some []
  | t :: r => do return (← t.lettered?) :: (← letteredTrees? r)

end

/-- The description of a model, if all names, packages and types are texts. -/
def Description.lettered? (d : Description) : Option Enfold.Description := do
  return {
    package := ← d.package.textOrNull?
    episode := ← d.episode.mapM fun refs => refs.mapM Value.asText?
    classes := ← letteredTrees? d.classes }

end Raw

namespace Description

def orUnlettered {α : Type} : Option α → Except DescriptionError α
  | some a => .ok a
  | none => .error .unlettered

def property (owner : String) (v : Value) : Except DescriptionError Property := do
  orUnlettered (← Raw.property owner v).lettered?

def singleClass (v : Value) : Except DescriptionError ClassEntry := do
  orUnlettered (← Raw.singleClass v).lettered?

end Description
end Enfold
