import Enfold.Model.Basic

/-! # Walking a model

Classes are visited in the order of their creation, each followed by the classes nested in it. The
names of a class depend on the classes around it, so they are computed where they are asked for.
-/

namespace Enfold.Model

variable (m : Model)

def children (c : ClassId) : List ClassId :=
  m.classIds.filter fun k => (m.decl k).parent = some c && c.index < k.index

theorem mem_children {m : Model} {c k : ClassId} :
    k ∈ m.children c ↔ k.index < m.classes.size ∧ (m.decl k).parent = some c ∧ c.index < k.index := by
  constructor
  · intro h
    simp only [children, classIds, List.mem_filter, List.mem_map, List.mem_range,
      Bool.and_eq_true, decide_eq_true_eq] at h
    obtain ⟨⟨i, hi, rfl⟩, hp, hc⟩ := h
    exact ⟨hi, hp, hc⟩
  · rintro ⟨hi, hp, hc⟩
    simp only [children, classIds, List.mem_filter, List.mem_map, List.mem_range,
      Bool.and_eq_true, decide_eq_true_eq]
    exact ⟨⟨k.index, hi, rfl⟩, hp, hc⟩

/-- A class and all that is nested in it, each before what it holds. -/
def subtree (c : ClassId) : List ClassId :=
  c :: (m.children c).attach.flatMap fun k => subtree k.1
termination_by m.classes.size - c.index
decreasing_by
  obtain ⟨h, -, hc⟩ := mem_children.mp k.2
  omega

def roots : List ClassId := m.classIds.filter fun k => (m.decl k).parent.isNone

/-- All classes in the order in which they are visited. -/
def walk : List ClassId := m.roots.flatMap m.subtree

def localName (c : ClassId) : String :=
  match (m.decl c).parent with
  | some p =>
    if p.index < c.index then localName p ++ "." ++ (m.decl c).name else (m.decl c).name
  | none => (m.decl c).name
termination_by c.index

/-- A name in a package; the empty package leaves it alone. -/
def inPackage (package : Option String) (name : String) : String :=
  match package with
  | none => name
  | some p => if p = "" then name else p ++ "." ++ name

def qualifiedName (c : ClassId) : String := inPackage (m.decl c).package (m.localName c)

/-- The class around a class, or else its package. -/
def scope (c : ClassId) : Option String :=
  match (m.decl c).parent with
  | some p => some (m.qualifiedName p)
  | none => (m.decl c).package

def namesInScope (package : Option String) (parent : Option ClassId) : List String :=
  match parent with
  | some c => (m.children c).map fun k => (m.decl k).name
  | none => (m.roots.filter fun k => (m.decl k).package = package).map fun k => (m.decl k).name

def path (p : PropertyId) : String :=
  match (m.prop p).owner with
  | some c => m.qualifiedName c ++ "." ++ (m.prop p).name
  | none => (m.prop p).name

/-- The declared type, or the wrapper that the property refers to. -/
def typeName (p : PropertyId) : Option String :=
  match (m.prop p).reference with
  | some c => some (m.qualifiedName c)
  | none => (m.prop p).valueType

def walkProperties : List PropertyId := m.walk.flatMap fun c => (m.decl c).properties

def findClass? (name : String) : Option ClassId := m.walk.find? fun c => m.qualifiedName c = name

def findProperty? (path : String) : Option PropertyId :=
  m.walkProperties.find? fun p => m.path p = path

/-- The class that a type name means: the first of that name, qualified or not. -/
def classOfType? (name : Option String) : Option ClassId :=
  name.bind fun n => m.walk.find? fun c => n = m.qualifiedName c || n = (m.decl c).name

def propertyNamed? (c : ClassId) (name : String) : Option PropertyId :=
  (m.decl c).properties.find? fun p => (m.prop p).name = name

def fields (c : ClassId) : List String := (m.decl c).properties.map fun p => (m.prop p).field

def basesWithin : (n : Nat) → ClassId → List ClassId
  | 0, _ => []
  | n + 1, c =>
    match (m.decl c).base with
    | some b => b :: basesWithin n b
    | none => []

/-- The classes that a class extends, nearest first, unless the links run in a circle. -/
def ancestors (c : ClassId) : List ClassId := m.basesWithin m.classes.size c

end Enfold.Model
