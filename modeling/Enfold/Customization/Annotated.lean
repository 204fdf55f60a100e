import Enfold.Customization.Settings

/-! # Annotations

A class or a property may carry a customization in the schema itself, an object whose members are
settings. It is checked as a whole where it is used.
-/

namespace Enfold.Annotated

inductive Key where
  | flag (make : Bool → Setting)
  | text (make : String → Setting)

def keys : Assoc String Key :=
  [("wrap", .flag .wrap), ("collection", .text .collection), ("instantiate", .text .instantiate),
    ("class", .text .className), ("field", .text .fieldName), ("nested", .flag .nested),
    ("plural", .flag .plural)]

def setting (member : String × Value) : Except AnnotationError Setting :=
  match Assoc.get? member.1 keys with
  | none => .error (.unknownKey member.1)
  | some (.flag make) =>
    match member.2 with
    | .bool b => .ok (make b)
    | _ => .error (.wrongKind member.1 "bool")
  | some (.text make) =>
    match member.2 with
    | .text s => (make s).checked.mapError .invalidSetting
    | _ => .error (.wrongKind member.1 "str")

/-- The settings of an annotation, of which there are none where it is missing. -/
def settings (place : String) (given : Value) : Except ConfigError Settings :=
  match given with
  | .null => .ok {}
  | .object members =>
    ((members.mapM setting).map Settings.ofList).mapError (.annotated place)
  | _ => .error (.annotated place .notMapping)

end Enfold.Annotated
