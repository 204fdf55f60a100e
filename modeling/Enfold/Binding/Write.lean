import Enfold.Binding.Read
import Enfold.Xml.Writer

/-! # Writing objects into documents

Each property of a class writes its value in order. A wrapper writes its items directly among the
children of its owner, so a document looks the same whether its model was wrapped or not.
-/

namespace Enfold.Binding

abbrev ValueWriter := Property → Except BindingError Xml.Element

structure Writer where
  datum : Datum
  value : ValueWriter
  /-- Its items, if it can be run through. -/
  items : Except BindingError (List ValueWriter)
  /-- Adds its items to the element of its owner, if it is an object. -/
  inline : Xml.Element → Except BindingError Xml.Element

abbrev FieldWriters := Assoc String Writer

def misused {α : Type} (m : Misuse) : Except BindingError α := .error (.misuse m)

/-- A text for a document; what counts as false is no text. -/
def textOf (d : Datum) : Except BindingError String :=
  match d with
  | .scalar (.text s) => .ok s
  | d => if d.isTruthy then misused .wrongKind else .ok ""

/-- A part of a text, which must be a text itself. -/
def textPart (d : Datum) : Except BindingError String :=
  match d with
  | .scalar (.text s) => .ok s
  | _ => misused .wrongKind

variable (m : Model)

/-- The value of an attribute. A container is written as a message shows it. -/
def attributeText (d : Datum) : Except BindingError String :=
  match d with
  | .scalar (.text s) => .ok s
  | .container .. => .ok (d.shown m)
  | _ => misused .wrongKind

def addChild (parent child : Xml.Element) : Xml.Element :=
  { parent with children := parent.children ++ [child] }

def writeItems (p : Property) (parent : Xml.Element) (items : List ValueWriter) :
    Except BindingError Xml.Element :=
  items.foldlM (fun acc w => (w p).map (addChild acc)) parent

/-- The items of a field; what counts as false has none. -/
def itemsOf (fields : FieldWriters) (field : String) : Except BindingError (List ValueWriter) :=
  match Assoc.get? field fields with
  | some w => if w.datum.isTruthy then w.items else .ok []
  | none => .ok []

def partsOf (d : Datum) : Except BindingError (List Datum) :=
  match d with
  | .scalar (.text s) => .ok (s.toList.map fun c => .text c.toString)
  | .container _ xs => .ok xs
  | .element e => .ok (e.children.map .element)
  | _ => misused .wrongKind

def runsOf (fields : FieldWriters) : Except BindingError (List Datum) :=
  match Assoc.get? textRunsName fields with
  | some w => if w.datum.isTruthy then partsOf w.datum else .ok []
  | none => .ok []

/-- Adds items, each with a run of text after it. -/
def writeMixedItems (p : Property) (parent : Xml.Element) :
    List ValueWriter → (runs : List Datum) → Except BindingError Xml.Element
  | [], _ => .ok parent
  | w :: ws, [] => do writeMixedItems p (addChild parent (← w p)) ws []
  | w :: ws, run :: runs => do
    let child ← w p
    writeMixedItems p (addChild parent { child with tail := ← textOf run }) ws runs

/-- Adds mixed content: the first run of text, then the items with the others. -/
def writeMixed (fields : FieldWriters) (p : Property) (parent : Xml.Element) :
    Except BindingError Xml.Element := do
  let runs ← runsOf fields
  let items ← itemsOf fields p.field
  match runs with
  | [] => writeMixedItems p parent items []
  | first :: runs =>
    writeMixedItems p { parent with text := parent.text ++ (← textPart first) } items runs

def writeProperty (fields : FieldWriters) (parent : Xml.Element) (q : PropertyId) :
    Except BindingError Xml.Element := do
  let p := m.prop q
  match Assoc.get? p.field fields with
  | none => return parent
  | some w =>
    if w.datum.isNull then return parent
    else if p.isAttribute then
      return { parent with attributes := Assoc.put p.name (← attributeText m w.datum) parent.attributes }
    else if p.reference.isSome then w.inline parent
    else if p.kind = .mixed then writeMixed fields p parent
    else if p.multiplicity = .repeated then writeItems p parent (← w.items)
    else return addChild parent (← w.value p)

def writeObject (c : ClassId) (fields : FieldWriters) (tag : String) :
    Except BindingError Xml.Element := do
  let text ← match Assoc.get? textField fields with
    | some w => textOf w.datum
    | none => pure ""
  (m.decl c).properties.foldlM (writeProperty m fields) { tag, text }

def writeWrappedProperty (fields : FieldWriters) (parent : Xml.Element) (q : PropertyId) :
    Except BindingError Xml.Element := do
  let p := m.prop q
  if p.synthetic then return parent
  else if p.kind = .mixed then writeMixed fields p parent
  else writeItems p parent (← itemsOf fields p.field)

/-- The tag that an object was read from, or the name of the property. -/
def tagOf (fields : FieldWriters) (p : Property) : Except BindingError String :=
  match Assoc.get? elementField fields with
  | some w => textPart w.datum
  | none => .ok p.name

namespace Writer

/-- Writes a datum that is neither an element nor an object by its text. -/
def plain (d : Datum) (p : Property) : Xml.Element := { tag := p.name, text := d.plain m }

def ofScalar (v : Value) : Writer where
  datum := .scalar v
  value p := .ok (plain m (.scalar v) p)
  items := match v with
    | .text s => .ok (s.toList.map fun c p => .ok (plain m (.text c.toString) p))
    | _ => misused .wrongKind
  inline _ := misused .noSuchAttribute

/-- What follows an element belongs to its place and not to the element. -/
def ofElement (e : Xml.Element) : Writer where
  datum := .element e
  value _ := .ok { e with tail := "" }
  items := .ok (e.children.map fun child _ => .ok { child with tail := "" })
  inline _ := misused .noSuchAttribute

def ofContainer (d : Datum) (items : List Writer) : Writer where
  datum := d
  value p := .ok (plain m d p)
  items := .ok (items.map Writer.value)
  inline _ := misused .noSuchAttribute

def ofObject (d : Datum) (c : ClassId) (fields : FieldWriters) : Writer where
  datum := d
  value p := do writeObject m c fields (← tagOf fields p)
  items := misused .wrongKind
  inline parent := (m.decl c).properties.foldlM (writeWrappedProperty m fields) parent

end Writer

mutual

/-- Writes a datum, whose parts are written by the same rules. -/
def writer : Datum → Writer
  | .scalar v => .ofScalar m v
  | .element e => .ofElement e
  | .container k xs => .ofContainer m (.container k xs) (itemWriters xs)
  | .object c values => .ofObject m (.object c values) c (fieldWriters values)
  | .shared cell => .ofContainer m (.shared cell) []

def itemWriters : List Datum → List Writer
  | [] => []
  | d :: r => writer d :: itemWriters r

def fieldWriters : List (String × Datum) → List (String × Writer)
  | [] => []
  | (k, d) :: r => (k, writer d) :: fieldWriters r

end

def marshalElement (d : Datum) : Except BindingError Xml.Element :=
  match d with
  | .object c values => writeObject m c (fieldWriters m values) (boundElement m c)
  | _ => misused .noSuchAttribute

def marshal (d : Datum) : Except BindingError String := do
  let e ← marshalElement m d
  match Xml.write e with
  | .ok text => return text
  | .error _ => misused (.invalid "not enough values to unpack (expected 2, got 1)")

end Enfold.Binding
