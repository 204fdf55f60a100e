import Enfold.Failure
import Enfold.Model.Walk

/-! # Assigning single members

Every member of a class or of a property can be set by its name. A member with a closed set of
values is given by the name of one of them, and a link by what it leads to. A member that is not
known changes nothing.
-/

namespace Enfold

def chosenFrom {α : Type} (kindName : String) (ofName? : String → Option α) (v : Value) :
    Except Misuse α :=
  match v.asText?.bind ofName? with
  | some a => .ok a
  | none => .error (.invalid (v.shown ++ " is not a valid " ++ kindName))

def chosenIfAny {α : Type} (choose : Value → Except Misuse α) (v : Value) :
    Except Misuse (Option α) :=
  if v.isNull then .ok none else (choose v).map some

def Multiplicity.choose : Value → Except Misuse Multiplicity :=
  chosenFrom "Multiplicity" Multiplicity.ofName?

def ContentKind.choose : Value → Except Misuse ContentKind :=
  chosenFrom "ContentKind" ContentKind.ofName?

def CollectionKind.choose : Value → Except Misuse CollectionKind :=
  chosenFrom "CollectionKind" CollectionKind.ofName?

def Instantiation.choose : Value → Except Misuse Instantiation :=
  chosenFrom "InstantiationMode" Instantiation.ofName?

/-- Sets a member of a class other than its links. -/
def ClassDecl.assign (d : ClassDecl) (member : String) (v : Value) : ClassDecl :=
  match member with
  | "name" => { d with name := v.plain }
  | "package" => { d with package := v.asText? }
  | "source" => { d with source := v.asText? }
  | "customization" => { d with customization := v }
  | "implementation" => { d with implementation := v.asText? }
  | "is_wrapper" => { d with isWrapper := v.isTruthy }
  | "element_name" => { d with element := v.asText? }
  | "description" => { d with description := v.asText? }
  | _ => d

def Property.assign (p : Property) (member : String) (v : Value) : Except Misuse Property :=
  match member with
  | "name" => .ok { p with name := v.plain }
  | "value_type" => .ok { p with valueType := v.asText? }
  | "multiplicity" => do return { p with multiplicity := ← Multiplicity.choose v }
  | "content_kind" => do return { p with kind := ← ContentKind.choose v }
  | "field_name" => .ok { p with field := v.plain }
  | "nillable" => .ok { p with nillable := v.isTruthy }
  | "required" => .ok { p with required := v.isTruthy }
  | "is_attribute" => .ok { p with isAttribute := v.isTruthy }
  | "description" => .ok { p with description := v.asText? }
  | "adapter" => .ok { p with adapter := v.asText? }
  | "implementation_type" => .ok { p with implementationType := v.asText? }
  | "substitutes" =>
    .ok { p with substitutes := (v.members?.getD []).map fun e => (e.1, e.2.asText?) }
  | "customization" => .ok { p with customization := v }
  | "collection_kind" => do
    return { p with collectionKind := ← chosenIfAny CollectionKind.choose v }
  | "collection_type" => .ok { p with collectionType := v.asText? }
  | "collection_interface" => .ok { p with collectionInterface := v }
  | "instantiation" => do
    return { p with instantiation := ← chosenIfAny Instantiation.choose v }
  | "synthetic" => .ok { p with synthetic := v.isTruthy }
  | _ => .ok p

end Enfold
