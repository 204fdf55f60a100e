import Enfold.Binding.Instance
import Enfold.Pass.Wrapper
import Enfold.Xml.Reader

/-! # Reading documents into objects

The properties of a class take the children of its element one after another, each as many as it
accepts. The items of a wrapper stand directly among the children of its owner. What no property
accepts is an error.
-/

namespace Enfold.Binding

abbrev ObjectReader := ClassId → Except BindingError Datum

structure Child where
  element : Xml.Element
  read : ObjectReader

def accepts (p : Property) (tag : String) : Bool :=
  match p.kind with
  | .any => true
  | .reference => tag = p.name || Assoc.contains tag p.substitutes
  | .element | .mixed => tag = p.name

variable (m : Model)

def typeFor (p : Property) (tag : String) : Option String :=
  match Assoc.get? tag p.substitutes with
  | some t => t
  | none => p.valueType

def readValue (p : Property) (k : Child) : Except BindingError Datum :=
  if p.kind = .any then .ok (.element k.element)
  else match m.classOfType? (typeFor p k.element.tag) with
    | none => .ok (if p.kind = .mixed then .element k.element else .text k.element.text)
    | some c => do
      match ← k.read c with
      | .object c values =>
        if Assoc.contains elementField values then return .object c values
        else return .object c (Assoc.put elementField (.text k.element.tag) values)
      | d => return d

/-- The values of an object and the children that are left. -/
abbrev Progress := Fields × List Child

def readItems (c : ClassId) (p : Property) (fs : Fields) : List Child → Except BindingError Progress
  | [] => .ok (fs, [])
  | k :: rest =>
    if accepts p k.element.tag then do
      let v ← readValue m p k
      readItems c p (← Instance.append m c fs v (some p.field)) rest
    else .ok (fs, k :: rest)

/-- Appends a run of text, if the class keeps such runs. -/
def appendText (c : ClassId) (keeps : Bool) (fs : Fields) (s : String) :
    Except BindingError Fields :=
  if keeps then Instance.append m c fs (.text s) (some textRunsName) else .ok fs

/-- Appends all children to a field, and the text after each to another. -/
def readMixedItems (c : ClassId) (p : Property) (keeps : Bool) (fs : Fields) :
    List Child → Except BindingError Fields
  | [] => .ok fs
  | k :: rest => do
    let v ← readValue m p k
    let fs ← Instance.append m c fs v (some p.field)
    readMixedItems c p keeps (← appendText m c keeps fs k.element.tail) rest

/-- Reads mixed content, which takes all children that are left. -/
def readMixed (c : ClassId) (p : Property) (text : String) (fs : Fields) (rest : List Child) :
    Except BindingError Progress := do
  let fs ← Instance.ensureContainer m c fs p
  let runs := m.propertyNamed? c textRunsName
  let fs ← match runs with
    | some q => Instance.ensureContainer m c fs (m.prop q)
    | none => pure fs
  let fs ← appendText m c runs.isSome fs text
  return (← readMixedItems m c p runs.isSome fs rest, [])

/-- Reads the items of a wrapper from among the children of its owner. -/
def readWrapped (w : ClassId) (text : String) :
    List PropertyId → Progress → Except BindingError Progress
  | [], s => .ok s
  | q :: qs, (fs, rest) => do
    let p := m.prop q
    if p.synthetic then readWrapped w text qs (fs, rest)
    else if p.kind = .mixed then readMixed m w p text fs rest
    else
      let fs ← Instance.ensureContainer m w fs p
      readWrapped w text qs (← readItems m w p fs rest)

def readProperty (c : ClassId) (e : Xml.Element) (s : Progress) (q : PropertyId) :
    Except BindingError Progress := do
  let p := m.prop q
  let (fs, rest) := s
  if p.isAttribute then
    match Assoc.get? p.name e.attributes with
    | some v => return (Assoc.put p.field (.text v) fs, rest)
    | none => return s
  else match p.reference with
    | some w => do
      let (values, rest) ←
        readWrapped m w e.text (m.decl w).properties (Instance.fresh m w, rest)
      return (Assoc.put p.field (.object w values) fs, rest)
    | none =>
      if p.kind = .mixed then readMixed m c p e.text fs rest
      else if p.multiplicity = .repeated then readItems m c p fs rest
      else match rest with
        | k :: rest =>
          if accepts p k.element.tag then
            return (Assoc.put p.field (← readValue m p k) fs, rest)
          else return s
        | [] => return s

/-- Whether the objects of a class can hold text in place of child elements. -/
def holdsText (c : ClassId) : Bool := (m.decl c).properties.all fun p => (m.prop p).isAttribute

def readObject (c : ClassId) (e : Xml.Element) (children : List Child) :
    Except BindingError Datum := do
  let (fs, rest) ←
    (m.decl c).properties.foldlM (readProperty m c e) (Instance.fresh m c, children)
  match rest with
  | k :: _ =>
    if !(m.decl c).isWrapper then .error (.unexpectedElement k.element.tag (m.qualifiedName c))
  | [] => pure ()
  if children.isEmpty && holdsText m c && Text.trim e.text ≠ "" then
    return .object c (Assoc.put textField (.text e.text) fs)
  return .object c fs

mutual

/-- Reads an element, whose children are read by the same rules. -/
def reader : Xml.Element → ObjectReader
  | ⟨tag, attributes, text, tail, children⟩ => fun c =>
    readObject m c ⟨tag, attributes, text, tail, children⟩ (childReaders children)

def childReaders : List Xml.Element → List Child
  | [] => []
  | e :: r => ⟨e, reader e⟩ :: childReaders r

end

def boundElement (c : ClassId) : String :=
  ((m.decl c).element.filter (· ≠ "")).getD (m.decl c).name

/-- The class that is asked for, or the first that is bound to the outermost element. -/
def rootClass (asked : Option String) (tag : String) : Except BindingError ClassId :=
  match asked.filter (· ≠ "") with
  | some name =>
    match m.findClass? name with
    | some c => .ok c
    | none => .error (.unknownRootClass name)
  | none =>
    match m.walk.find? fun c => !(m.decl c).isWrapper && boundElement m c = tag with
    | some c => .ok c
    | none => .error (.unboundRoot tag)

/-- Reads a document that was taken apart already. -/
def unmarshalElement (asked : Option String) (e : Xml.Element) : Except BindingError Datum := do
  reader m e (← rootClass m asked e.tag)

def unmarshal (asked : Option String) (text : String) : Except BindingError Datum :=
  match Xml.parse? text with
  | some e => unmarshalElement m asked e
  | none => .error .invalidXml

end Enfold.Binding
