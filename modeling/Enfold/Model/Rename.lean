import Enfold.Model.Edit

/-! # Renaming a class

The qualified names of a class and of all that is nested in it change together. Whatever is filed
under them follows: the name of an implementation that was derived from the name of the class, the
references of the episode, and the entries of the factories.
-/

namespace Enfold.Model

def implementationName (className : String) : String := className ++ "Impl"

/-- The text up to its last point with another name after it. -/
def besideLast (path name : String) : String :=
  match (Text.cutAtLast '.' path.toList).1 with
  | some (c :: r) => String.ofList (c :: r) ++ "." ++ name
  | _ => name

/-- The new name of an implementation that was named after its class. -/
def renamedImplementation? (old new implementation : String) : Option String :=
  if String.ofList (Text.cutAtLast '.' implementation.toList).2 = implementationName old then
    some (besideLast implementation (implementationName new))
  else none

/-- Gives a class an implementation, and every property that refers to it. -/
def setImplementation (m : Model) (c : ClassId) (implementation : String) : Model :=
  let linked := m.walkProperties.foldl (fun m p =>
    if (m.prop p).reference = some c then
      m.modifyProperty p fun q => { q with implementationType := some implementation }
    else m) m
  linked.modifyClass c fun d => { d with implementation := some implementation }

/-- Lets the episode follow a class, and keeps a reference that another class answers to. -/
def followEpisode (m : Model) (old new : String) : Model :=
  match m.episode with
  | none => m
  | some e =>
    if !e.contains old then m
    else if (m.findClass? old).isNone then { m with episode := some (e.rename old new) }
    else { m with episode := some (e.add new) }

/-- Lets the entry of a class in the factory of its package follow it. -/
def followFactory (m : Model) (c : ClassId) (old new : String) : Model :=
  let d := m.decl c
  match Assoc.get? d.package m.factories with
  | none => m
  | some f =>
    if Assoc.contains old f then
      m.modifyFactory d.package fun f =>
        let f := Assoc.rename old new f
        match d.implementation.filter (· ≠ "") with
        | some i => Assoc.put new i f
        | none => f
    else m

def renameClass (m : Model) (c : ClassId) (name : String) : Model :=
  let before := (m.subtree c).map fun k => (k, m.qualifiedName k)
  let old := (m.decl c).name
  let m := m.modifyClass c fun d => { d with name := name }
  let m := match (m.decl c).implementation.bind (renamedImplementation? old name) with
    | some i => m.setImplementation c i
    | none => m
  before.foldl (fun m e =>
    let new := m.qualifiedName e.1
    (m.followEpisode e.2 new).followFactory e.1 e.2 new) m

end Enfold.Model
