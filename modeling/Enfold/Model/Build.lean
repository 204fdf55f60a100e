import Enfold.Model.Description

/-! # Building a model

The classes of a description are added in the order in which they stand there, each before those
nested in it. Links to base classes are made last, so they may lead anywhere in the model.
-/

namespace Enfold.Model

def addProperty (m : Model) (c : ClassId) (p : Property) : Model :=
  let (m, id) := m.newProperty p
  m.attachProperty c id

def addEntry (m : Model) (e : ClassEntry) (package : Option String) (parent : Option ClassId) :
    Model × ClassId :=
  let (m, c) := m.addClass (e.decl package) parent
  (e.properties.foldl (fun m p => m.addProperty c p) m, c)

/-- A model in the making, whose bases are looked up at the end. -/
structure Draft where
  model : Model
  bases : List (ClassId × Value) := []

mutual

def Draft.addTree (package : Option String) (parent : Option ClassId) (d : Draft) :
    ClassTree → Draft
  | .node e nested =>
    let (m, c) := d.model.addEntry e package parent
    let bases := if e.base.isTruthy then d.bases ++ [(c, e.base)] else d.bases
    Draft.addTrees package (some c) ⟨m, bases⟩ nested

def Draft.addTrees (package : Option String) (parent : Option ClassId) (d : Draft) :
    List ClassTree → Draft
  | [] => d
  | t :: r => Draft.addTrees package parent (Draft.addTree package parent d t) r

end

/-- Links a class to its base, the first class of that qualified name. -/
def linkBase (m : Model) (link : ClassId × Value) : Except DescriptionError Model :=
  match link.2.asText?.bind m.findClass? with
  | some b => .ok (m.modifyClass link.1 fun d => { d with base := some b })
  | none => .error (.unknownBase link.2 (m.qualifiedName link.1))

def ofDescription (d : Description) : Except DescriptionError Model :=
  let draft := Draft.addTrees d.package none ⟨{ episode := d.episode.map Episode.ofList }, []⟩ d.classes
  draft.bases.foldlM linkBase draft.model

/-- The model that a value describes. -/
def ofValue (v : Value) : Except DescriptionError Model := do
  let g ← Raw.Graph.ofValue v
  ofDescription (← Description.orUnlettered g.lettered?)

end Enfold.Model
