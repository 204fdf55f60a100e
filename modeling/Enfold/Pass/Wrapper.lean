import Enfold.Pass.Candidate
import Enfold.Model.Build
import Enfold.Model.Rename

/-! # Wrappers

Wrapping a candidate moves its property to a new class and leaves a reference to that class in its
place. Names and places are planned before the model is touched. A property that a base class had
wrapped already is not wrapped again but dropped, since the reference of the base covers it.
-/

namespace Enfold

/-- The names and the place of a wrapper. -/
structure WrapperPlan where
  className : String
  explicitName : Bool
  package : Option String
  parent : Option ClassId
  itemField : String
  referenceField : String
  deriving Repr, Inhabited

/-- The property that holds the text of mixed content. -/
def textRunsName : String := "any_text"

/-- The type of content that nothing is known about. -/
def looseType : String := "object"

namespace Model

def addWrapper (m : Model) (c : Candidate) (plan : WrapperPlan) : Model × ClassId :=
  m.addClass {
    name := plan.className, package := plan.package, source := (m.decl c.owner).source
    isWrapper := true, element := some (m.prop c.prop).name
    description := some ("Wrapper for " ++ c.path) } plan.parent

def setCollection (m : Model) (p : PropertyId) (d : Directive) : Model :=
  m.modifyProperty p fun q => { q with
    multiplicity := .repeated
    collectionKind := some d.collection.kind
    collectionType := some d.collection.typeName
    collectionInterface := d.interface
    instantiation := some d.instantiation }

def loosenType (m : Model) (p : PropertyId) : Model :=
  m.modifyProperty p fun q =>
    { q with valueType := some ((q.valueType.filter (· ≠ "")).getD looseType) }

/-- Mixed content keeps the text around its items in a property of its own. -/
def addTextRuns (m : Model) (w : ClassId) (p : PropertyId) : Model :=
  let q := m.prop p
  m.addProperty w {
    name := textRunsName, valueType := some "str", multiplicity := .repeated, kind := .mixed
    synthetic := true, collectionKind := q.collectionKind, collectionType := q.collectionType
    collectionInterface := q.collectionInterface, instantiation := q.instantiation
    description := some "Text runs around the typed children, in document order" }

/-- What the kind of its content asks of a property that has moved. -/
def fitContent (m : Model) (w : ClassId) (p : PropertyId) : Model :=
  match (m.prop p).kind with
  | .element | .reference => m
  | .any => m.loosenType p
  | .mixed => m.addTextRuns w p

def addReference (m : Model) (c : Candidate) (w : ClassId) (field : String) (slot : Nat) :
    Model × PropertyId :=
  let p := m.prop c.prop
  let (m, r) := m.newProperty {
    name := field, valueType := some (m.qualifiedName w), field
    nillable := p.nillable, required := p.required, reference := some w
    description := p.description }
  (m.insertProperty c.owner slot r, r)

/-- Moves the property of a candidate to its wrapper. -/
def relink (m : Model) (c : Candidate) (w : ClassId) (plan : WrapperPlan) :
    Except OwnershipError (Model × PropertyId) := do
  let (m, slot) ← m.moveProperty c.prop w (some plan.itemField)
  let m := (m.setCollection c.prop c.directive).fitContent w c.prop
  return m.addReference c w plan.referenceField slot

/-- A wrapper has an implementation if its owner has one. -/
def implementWrapper (m : Model) (owner w : ClassId) (r : PropertyId) : Model :=
  match (m.decl owner).implementation.filter (· ≠ "") with
  | none => m
  | some implementation =>
    let name := besideLast implementation (implementationName (m.decl w).name)
    let m := m.modifyClass w fun d => { d with implementation := some name }
    let m := m.modifyProperty r fun q => { q with implementationType := some name }
    m.modifyFactory (m.decl w).package (Assoc.put (m.qualifiedName w) name)

def listInEpisode (m : Model) (c : ClassId) : Model :=
  { m with episode := m.episode.map fun e => e.add (m.qualifiedName c) }

end Model

namespace Candidate

/-- The wrapper of the nearest base class that has wrapped the same element. -/
def inherited? (c : Candidate) (s : PassState) : Option ClassId :=
  (s.model.ancestors c.owner).findSome? fun b =>
    Assoc.get? (b, (s.model.prop c.prop).name) s.wrapped

def parent? (c : Candidate) : Option ClassId :=
  if c.directive.nested.isTruthy then some c.owner else none

/-- A name that was asked for is taken even if it is not free. -/
def claimClassName (c : Candidate) (n : Naming) : PassM String := do
  let m := (← get).model
  let owner := m.decl c.owner
  let derived ← PassM.require .name (n.wrapperClassName (m.prop c.prop).name
    c.directive.plural.isTruthy c.directive.className)
  if c.directive.className.isSome then return derived
  PassM.claimName n.maxSuffix derived (m.namesInScope owner.package c.parent?)
    (if c.parent?.isSome then some (m.qualifiedName c.owner) else owner.package)

/-- A field that no other property of the owner has. -/
def claimReferenceField (c : Candidate) (n : Naming) (className : String) : PassM String := do
  let m := (← get).model
  let others := (m.decl c.owner).properties.filter (· ≠ c.prop)
  PassM.claimName n.maxSuffix (n.referenceFieldName className) (others.map fun q => (m.prop q).field)
    (some (m.qualifiedName c.owner))

def plan (c : Candidate) (n : Naming) : PassM WrapperPlan := do
  let className ← c.claimClassName n
  let referenceField ← c.claimReferenceField n className
  let m := (← get).model
  return {
    className, explicitName := c.directive.className.isSome, package := (m.decl c.owner).package
    parent := c.parent?, itemField := n.itemFieldName (m.prop c.prop).name c.directive.fieldName
    referenceField }

def dropInherited (c : Candidate) (w : ClassId) : PassM Record := do
  let record ← PassM.require id
    ({ candidate := c, wrapper := some w : Record }.advance .selected)
  let (m, _) ← PassM.require .ownership ((← get).model.deleteProperty c.prop)
  PassM.setModel m
  let record ← PassM.require id ({ record with deleted := true }.advance .newClassCreated)
  PassM.count fun k => { k with deletions := k.deletions + 1 }
  let record ← PassM.require id (record.advance .propertyRelinked)
  PassM.report (.duplicateRemoved c.path (m.qualifiedName w))
  return record

def wrap (c : Candidate) (plan : WrapperPlan) : PassM Record := do
  let (m, w) := (← get).model.addWrapper c plan
  PassM.setModel m
  let record ← PassM.require id
    ({ candidate := c, wrapper := some w, explicitName := plan.explicitName : Record }.advance
      .selected)
  let (m, r) ← PassM.require .ownership (m.relink c w plan)
  PassM.setModel m
  let p := m.prop c.prop
  PassM.reportIf (p.kind = .reference && p.substitutes.isEmpty) (.headWithoutMembers c.path)
  let record ← PassM.require id ({ record with reference := some r }.advance .newClassCreated)
  PassM.setModel ((m.implementWrapper c.owner w r).listInEpisode w)
  PassM.count fun k => { k with modifications := k.modifications + 1 }
  let record ← PassM.require id (record.advance .propertyRelinked)
  modify fun s => { s with wrapped := Assoc.put (c.owner, p.name) w s.wrapped }
  return record

/-- Wraps a candidate, or drops it if a base class has it already. -/
def synthesize (n : Naming) (c : Candidate) : PassM Record := do
  match c.inherited? (← get) with
  | some w => c.dropInherited w
  | none => c.wrap (← c.plan n)

end Candidate

def synthesizeAll (n : Naming) (candidates : List Candidate) : PassM (List Record) := do
  let records ← candidates.mapM (Candidate.synthesize n)
  let k := (← get).counters
  PassM.report (.synthesized k.modifications k.deletions)
  return records

end Enfold
