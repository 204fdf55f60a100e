import Enfold.Failure
import Enfold.Model.Walk

/-! # Editing a model

Classes and properties are added to a model and properties move between classes. Each move changes
the list of a class and the owner of the property together.
-/

namespace Enfold.Model

/-- Adds a class, inside another one and in its package if `parent` names it. -/
def addClass (m : Model) (d : ClassDecl) (parent : Option ClassId) : Model × ClassId :=
  let d := match parent with
    | some p => { d with parent := some p, package := (m.decl p).package }
    | none => { d with parent := none }
  ({ m with classes := m.classes.push d }, ⟨m.classes.size⟩)

/-- Adds a property that no class owns yet. -/
def newProperty (m : Model) (p : Property) : Model × PropertyId :=
  ({ m with properties := m.properties.push p }, ⟨m.properties.size⟩)

/-- The place that a number means, which may be negative and count from the end. -/
def placeFor (length : Nat) (i : Int) : Nat :=
  if i < 0 then (length + i).toNat else min i.toNat length

/-- Makes a class the owner of a property and lists it there at a place. -/
def insertProperty (m : Model) (c : ClassId) (i : Int) (p : PropertyId) : Model :=
  (m.modifyProperty p fun q => { q with owner := some c }).modifyClass c fun d =>
    { d with properties := d.properties.insertIdx (placeFor d.properties.length i) p }

def attachProperty (m : Model) (c : ClassId) (p : PropertyId) : Model :=
  (m.modifyProperty p fun q => { q with owner := some c }).modifyClass c fun d =>
    { d with properties := d.properties ++ [p] }

def indexOf (m : Model) (c : ClassId) (p : PropertyId) : Except OwnershipError Nat :=
  match (m.decl c).properties.idxOf? p with
  | some i => .ok i
  | none => .error (.notOwned (m.prop p).name (m.qualifiedName c))

def removeProperty (m : Model) (c : ClassId) (p : PropertyId) :
    Except OwnershipError (Model × Nat) := do
  let i ← m.indexOf c p
  let m := m.modifyClass c fun d => { d with properties := d.properties.eraseIdx i }
  return (m.modifyProperty p fun q => { q with owner := none }, i)

def deleteProperty (m : Model) (p : PropertyId) : Except OwnershipError (Model × Nat) :=
  match (m.prop p).owner with
  | none => .error (.nowhereToDeleteFrom (m.prop p).name)
  | some c => m.removeProperty c p

/-- Moves a property to another class and returns the place that it had. -/
def moveProperty (m : Model) (p : PropertyId) (target : ClassId) (field : Option String) :
    Except OwnershipError (Model × Nat) :=
  match (m.prop p).owner with
  | none => .error (.nowhereToMoveFrom (m.prop p).name)
  | some c => do
    let (m, i) ← m.removeProperty c p
    let m := match field.filter (· ≠ "") with
      | some f => m.modifyProperty p fun q => { q with field := f }
      | none => m
    return (m.attachProperty target p, i)

/-- Changes the factory of a package, which is made if it is not there. -/
def modifyFactory (m : Model) (package : Option String) (f : Factory → Factory) : Model :=
  { m with factories := Assoc.put package (f ((Assoc.get? package m.factories).getD [])) m.factories }

end Enfold.Model
