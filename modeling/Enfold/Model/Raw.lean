import Enfold.Model.Property
import Enfold.Value.Mapping

/-! # Raw graphs

A description is an object with a list of classes, which nest, and with the properties of each. It
is read into a graph of the classes that are linked to their bases. Names, packages and types are
kept as they stand there, since nothing asks whether they are texts. Where a list is expected,
whatever can be run through will do, but an entry that is no object is refused like one without a
name.
-/

namespace Enfold

def Text.occursIn (part : List Char) : List Char → Bool
  | [] => part.isEmpty
  | c :: r => part.isPrefixOf (c :: r) || occursIn part r

namespace Raw

structure Property where
  name : Value
  valueType : Value
  multiplicity : Multiplicity
  kind : ContentKind
  field : Value
  nillable : Bool
  required : Bool
  isAttribute : Bool
  adapter : Value
  implementationType : Value
  substitutes : List (Value × Value)
  customization : Value

structure ClassEntry where
  name : Value
  /-- The package, if the entry names one. -/
  package : Option Value
  properties : List Property
  source : Value
  customization : Value
  implementation : Value
  element : Value
  /-- The qualified name of the class that is extended. -/
  base : Value

/-- A class of a description and those that are nested in it. -/
inductive ClassTree where
  | node (entry : ClassEntry) (nested : List ClassTree)

structure Description where
  /-- The package of those classes that name none. -/
  package : Value
  episode : Option (List Value)
  classes : List ClassTree

abbrev Members := Assoc String Value

def ill {α : Type} (m : Misuse) : Except DescriptionError α := .error (.misuse m)

/-! ### Properties -/

def member (name : String) (ms : Members) (missing : Value := .null) : Value :=
  (Assoc.get? name ms).getD missing

def nameMember (nameless : DescriptionError) (ms : Members) : Except DescriptionError Value :=
  match Assoc.get? "name" ms with
  | some v => .ok v
  | none => .error nameless

/-- An entry that is no object has no name, or cannot be asked for one. -/
def refuse {α : Type} (nameless : DescriptionError) (lookup : Misuse) (v : Value) :
    Except DescriptionError α :=
  match v with
  | .text s => if Text.occursIn "name".toList s.toList then ill lookup else .error nameless
  | .list xs => if xs.any fun x => x.asText? = some "name" then ill lookup else .error nameless
  | _ => ill .wrongKind

def kindOf (owner name : String) (ms : Members) : Except DescriptionError ContentKind :=
  match Assoc.get? "kind" ms with
  | none => .ok .element
  | some v =>
    match v.asText?.bind ContentKind.ofName? with
    | some k => .ok k
    | none => .error (.unknownKind v owner name)

def substitutesMember (ms : Members) : Value := member "substitutes" ms (.object [])

def propertyEntry (owner : String) (ms : Members) : Except DescriptionError Property := do
  let name ← nameMember (.propertyWithoutName owner) ms
  let kind ← kindOf owner name.plain ms
  let substitutes ← (substitutesMember ms).toPairs.mapError .misuse
  let field := member "field" ms
  return {
    name, kind, substitutes
    valueType := member "type" ms (.text "str")
    multiplicity := if (member "repeated" ms).isTruthy then .repeated else .single
    field := if field.isTruthy then field else name
    nillable := (member "nillable" ms).isTruthy
    required := (member "required" ms).isTruthy
    isAttribute := (member "attribute" ms).isTruthy
    adapter := member "adapter" ms
    implementationType := member "implementation_type" ms
    customization := member "customization" ms }

def property (owner : String) : Value → Except DescriptionError Property
  | .object ms => propertyEntry owner ms
  | v => refuse (.propertyWithoutName owner) .noSuchAttribute v

/-! ### Classes -/

/-- What a value that should be a list of entries holds. -/
def entries (v : Value) : Except DescriptionError (List Value) :=
  match v.parts? with
  | some parts => .ok parts
  | none => ill .wrongKind

def propertiesMember (ms : Members) : Value := member "properties" ms (.list [])

def nestedMember (ms : Members) : Value := member "nested" ms (.list [])

def classEntry (ms : Members) : Except DescriptionError ClassEntry := do
  let name ← nameMember .classWithoutName ms
  let properties ← (← entries (propertiesMember ms)).mapM (property name.plain)
  return {
    name, properties
    package := Assoc.get? "package" ms
    source := member "source" ms
    customization := member "customization" ms
    implementation := member "implementation" ms
    element := member "element" ms
    base := member "base" ms }

def refuseClass {α : Type} : Value → Except DescriptionError α :=
  refuse .classWithoutName .wrongKind

def singleClass : Value → Except DescriptionError ClassEntry
  | .object ms => classEntry ms
  | v => refuseClass v

mutual

def tree : Value → Except DescriptionError ClassTree
  | .object ms => do
    let entry ← classEntry ms
    return .node entry (← nestedTrees ms)
  | v => refuseClass v

/-- The trees of the first member that holds nested classes. -/
def nestedTrees : List (String × Value) → Except DescriptionError (List ClassTree)
  | [] => .ok []
  | (k, v) :: r => if k = "nested" then treesIn v else nestedTrees r

def treesIn : Value → Except DescriptionError (List ClassTree)
  | .list xs => trees xs
  | .object [] => .ok []
  | .object (m :: _) => refuseClass (.text m.1)
  | .text s => if s = "" then .ok [] else .error .classWithoutName
  | _ => ill .wrongKind

def trees : List Value → Except DescriptionError (List ClassTree)
  | [] => .ok []
  | v :: r => do
    let t ← tree v
    return t :: (← trees r)

end

/-! ### Descriptions -/

/-- A model has an episode if `true` or a list stands for it. -/
def episodeOf : Value → Except DescriptionError (Option (List Value))
  | .bool true => .ok (some [])
  | .list refs =>
    if refs.all Value.isKey then .ok (some (refs.eraseDupsBy Value.same)) else ill .wrongKind
  | _ => .ok none

def classesOf (v : Value) : Option (List Value) := (v.member? "classes").bind Value.items?

def Description.ofValue (v : Value) : Except DescriptionError Description := do
  match classesOf v with
  | some classes =>
    let episode ← episodeOf ((v.member? "episode").getD .null)
    return {
      episode
      package := (v.member? "package").getD (.text "")
      classes := ← trees classes }
  | none => .error .noClassList

/-! ### Links to bases -/

/-- A class of a graph, with what follows from those around it. -/
structure Node where
  package : Value
  localName : Value
  entry : ClassEntry

def Node.qualifiedName (n : Node) : Value :=
  if n.package.isTruthy then .text (n.package.plain ++ "." ++ n.localName.plain) else n.localName

/-- The class of an entry, within another one or in the package that it names. -/
def nodeOf (package : Value) (around : Option Node) (e : ClassEntry) : Node :=
  match around with
  | some n => ⟨n.package, .text (n.localName.plain ++ "." ++ e.name.plain), e⟩
  | none => ⟨e.package.getD package, e.name, e⟩

mutual

def ClassTree.nodes (package : Value) (around : Option Node) : ClassTree → List Node
  | .node e nested =>
    nodeOf package around e :: nodesIn package (some (nodeOf package around e)) nested

def nodesIn (package : Value) (around : Option Node) : List ClassTree → List Node
  | [] => []
  | t :: r => t.nodes package around ++ nodesIn package around r

end

def Description.nodes (d : Description) : List Node := nodesIn d.package none d.classes

/-- The base of a class is the first class of that qualified name. -/
def basePlace (nodes : List Node) (n : Node) : Except DescriptionError (Option Nat) :=
  if n.entry.base.isTruthy then
    match nodes.findIdx? fun b => Value.same b.qualifiedName n.entry.base with
    | some i => .ok (some i)
    | none => .error (.unknownBase n.entry.base n.qualifiedName.plain)
  else .ok none

/-- A description with the places of the bases of its classes. -/
structure Graph extends Description where
  bases : List (Option Nat)

def Graph.ofValue (v : Value) : Except DescriptionError Graph := do
  let d ← Description.ofValue v
  return { d with bases := ← d.nodes.mapM (basePlace d.nodes) }

end Raw
end Enfold
