import Enfold.Pass.Candidate
import Enfold.Model.Rename

/-! # Placement

No two classes of a finished model share a qualified name. Classes are visited in order; the first
to claim a name keeps it, and a later one gets a suffix that is free in its scope.
-/

namespace Enfold

namespace Model

/-- The names of the classes beside one, and those that were claimed in their scope. -/
def takenBeside (m : Model) (c : ClassId) (claimed : List String) : List String :=
  let scope := m.scope c
  let start := match scope.filter (· ≠ "") with
    | some s => (s ++ ".").toList
    | none => []
  let beside := m.walk.filter fun d =>
    m.scope d = scope && (m.decl d).parent = (m.decl c).parent
  let local? (name : String) : Option String :=
    let rest := name.toList.drop start.length
    if start.isPrefixOf name.toList && !rest.contains '.' then some (String.ofList rest) else none
  beside.map (fun d => (m.decl d).name) ++ claimed.filterMap local?

end Model

def renameCollision (n : Naming) (c : ClassId) (claimed : List String) : PassM Unit := do
  let m := (← get).model
  let name ← PassM.claimName n.maxSuffix (m.decl c).name (m.takenBeside c claimed) (m.scope c)
  let renamed := m.renameClass c name
  PassM.setModel renamed
  PassM.report (.renamed (m.qualifiedName c) (renamed.qualifiedName c))

structure PlacementState where
  claimed : List String := []
  renamed : List ClassId := []

/-- Lets a class claim its name, or another one if it is claimed already. -/
def placeClass (n : Naming) (s : PlacementState) (c : ClassId) : PassM PlacementState := do
  if (← get).model.qualifiedName c ∈ s.claimed then
    renameCollision n c s.claimed
    return ⟨s.claimed ++ [(← get).model.qualifiedName c], s.renamed ++ [c]⟩
  else return { s with claimed := s.claimed ++ [(← get).model.qualifiedName c] }

/-- Renames later duplicates until no two classes share a name, and returns them in order. -/
def placeClasses (n : Naming) : PassM (List ClassId) := do
  let s ← (← get).model.walk.foldlM (placeClass n) {}
  PassM.reportIf (!s.renamed.isEmpty) (.collisionsResolved s.renamed.length)
  return s.renamed

end Enfold
