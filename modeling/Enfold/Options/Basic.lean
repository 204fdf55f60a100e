import Enfold.Value.Mapping

/-! # Options

The options of a pass, each as it was given. Options come from layers of raw entries, in which an
option may be spelled in either of two ways; entries that name no option are kept as custom ones.
Checking the values is a step of its own, so options may also be used unchecked.
-/

namespace Enfold

structure Options where
  collection : Value := .text "list"
  /-- The declared type of wrapped fields, or nothing for that of the collection. -/
  collectionInterface : Value := .null
  instantiate : Value := .text "eager"
  plural : Value := .bool false
  nested : Value := .bool false
  maxSuffix : Value := .int 9999
  /-- The path of a control file. -/
  control : Value := .null
  /-- The path of a file that the summary is written to. -/
  summary : Value := .null
  /-- Entries that name no option. -/
  custom : Value := .object []
  deriving Repr, Inhabited

/-- Options before they are told apart. -/
abbrev RawOptions := Assoc String Value

namespace Options

/-- The built-in defaults, the lowest layer. -/
def defaults : RawOptions :=
  [("collection", .text "list"), ("collection_interface", .null), ("instantiate", .text "eager"),
    ("plural", .bool false), ("nested", .bool false), ("max_suffix", .int 9999)]

/-- The other spelling that two of the options have. -/
def canonicalName (key : String) : String :=
  if key = "collectionInterface" then "collection_interface"
  else if key = "maxSuffix" then "max_suffix"
  else key

def set? (o : Options) (key : String) (v : Value) : Option Options :=
  match key with
  | "collection" => some { o with collection := v }
  | "collection_interface" => some { o with collectionInterface := v }
  | "instantiate" => some { o with instantiate := v }
  | "plural" => some { o with plural := v }
  | "nested" => some { o with nested := v }
  | "max_suffix" => some { o with maxSuffix := v }
  | "control" => some { o with control := v }
  | "summary" => some { o with summary := v }
  | "custom" => some { o with custom := v }
  | _ => none

/-- All options but the custom entries, by name. -/
def toRaw (o : Options) : RawOptions :=
  [("collection", o.collection), ("collection_interface", o.collectionInterface),
    ("instantiate", o.instantiate), ("plural", o.plural), ("nested", o.nested),
    ("max_suffix", o.maxSuffix), ("control", o.control), ("summary", o.summary)]

/-- Options from entries of exactly these names, with nothing checked. -/
def ofFields (fields : RawOptions) : Except Misuse Options :=
  fields.foldlM (fun o e => match o.set? e.1 e.2 with
    | some o => .ok o
    | none => .error .wrongKind) {}

/-- Tells options from custom entries, which are added to those given as `custom`. -/
def ofRaw (raw : RawOptions) : Except Misuse Options := do
  let (o, extra) := raw.foldl (fun (acc : Options × RawOptions) e =>
    match acc.1.set? (canonicalName e.1) e.2 with
    | some o => (o, acc.2)
    | none => (acc.1, Assoc.put e.1 e.2 acc.2)) ({}, [])
  if extra.isEmpty then return o
  let custom ← o.custom.toMappingOrEmpty
  return { o with custom := .object (Assoc.merge custom extra) }

def resolvedCollection (o : Options) : Except OptionError Collection :=
  Collection.resolve o.collection

def resolvedInstantiation (o : Options) : Except OptionError Instantiation :=
  Instantiation.resolve o.instantiate

/-- The interface that is asked for, or else the type of the collection. -/
def effectiveInterface (o : Options) : Except OptionError Value :=
  if o.collectionInterface.isTruthy then .ok o.collectionInterface
  else o.resolvedCollection.map fun c => .text c.typeName

def rejection {α : Type} : Except OptionError α → List OptionError
  | .ok _ => []
  | .error e => [e]

def checkFlag (option : String) (v : Value) : List OptionError :=
  if v.asBool?.isSome then [] else [.notBoolean option]

def checkMaxSuffix (v : Value) : List OptionError :=
  match v.asInt? with
  | some n => if 1 ≤ n then [] else [.invalidMaxSuffix v]
  | none => [.invalidMaxSuffix v]

def pathOf (v : Value) : Except Misuse Path :=
  match v with
  | .text s => .ok (Path.ofText s)
  | _ => .error .wrongKind

def checkControl (files : FileTree) (v : Value) : Except Misuse (List OptionError) :=
  if v.isNull then .ok [] else do
    let p ← pathOf v
    return if files.isFile p then [] else [.controlNotFound v.plain]

/-- Everything that is wrong with the values of the options, in their order. -/
def rejections (files : FileTree) (o : Options) : Except Misuse (List OptionError) := do
  let control ← checkControl files o.control
  return rejection o.resolvedCollection ++
    (if o.collectionInterface.isNull then [] else rejection (validateInterface o.collectionInterface)) ++
    rejection o.resolvedInstantiation ++ checkFlag "plural" o.plural ++
    checkFlag "nested" o.nested ++ checkMaxSuffix o.maxSuffix ++ control

end Options
end Enfold
