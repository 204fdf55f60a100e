import Enfold.Binding.Datum
import Enfold.Failure

/-! # Objects of a model

A fresh object of a wrapper class has the containers that are made with it. All others are made
when their field is first asked for, or are left to the caller. Without a name the field that is
meant is the first one that stands for something in the schema.
-/

namespace Enfold.Instance

/-- An empty container for a field. Collections without an order keep that of the document. -/
def newContainer (p : Property) : Datum :=
  if p.collectionKind = some .ordered ∧ p.collectionType = some "deque" then .container .deque []
  else .container .list []

variable (m : Model) (c : ClassId)

def fresh : Fields :=
  if (m.decl c).isWrapper then
    (m.decl c).properties.foldl (fun fs p =>
      let q := m.prop p
      if q.instantiation = some .eager then Assoc.put q.field (newContainer q) fs else fs) []
  else []

/-- The property that a field name means. -/
def wrappedField (field : Option String) : Except BindingError Property :=
  let fits (p : Property) : Bool := match field with
    | none => !p.synthetic
    | some f => p.field = f
  match ((m.decl c).properties.map m.prop).find? fits with
  | some p => .ok p
  | none => .error (.noField (m.qualifiedName c) field)

/-- The container of a field, which is made unless that is left to the caller. -/
def items (fs : Fields) (field : Option String) : Except BindingError (Fields × Datum) := do
  let p ← wrappedField m c field
  match Assoc.get? p.field fs with
  | some d => return (fs, d)
  | none =>
    if p.instantiation = some .byCaller then return (fs, .null)
    return (Assoc.put p.field (newContainer p) fs, newContainer p)

def setItems (fs : Fields) (d : Datum) (field : Option String) : Except BindingError Fields := do
  let p ← wrappedField m c field
  return Assoc.put p.field d fs

def ensureContainer (fs : Fields) (p : Property) : Except BindingError Fields :=
  if Assoc.contains p.field fs then .ok fs else setItems m c fs (newContainer p) (some p.field)

mutual

/-- Appends to a container, an element, or an object, which passes it on. -/
def push (v : Datum) : Datum → Except BindingError Datum
  | .container k xs => .ok (.container k (xs ++ [v]))
  | .element e =>
    match v with
    | .element child => .ok (.element { e with children := e.children ++ [child] })
    | _ => .error (.misuse .wrongKind)
  | .object c values => do
    let p ← wrappedField m c none
    if Assoc.contains p.field values then
      return .object c (← pushInto (m.qualifiedName c) p.field v values)
    else if p.instantiation = some .byCaller then
      .error (.noContainer (m.qualifiedName c) p.field)
    else
      match newContainer p with
      | .container k xs => return .object c (Assoc.put p.field (.container k (xs ++ [v])) values)
      | _ => .error (.misuse .noSuchAttribute)
  | .scalar _ | .shared _ => .error (.misuse .noSuchAttribute)

def pushInto (className field : String) (v : Datum) :
    List (String × Datum) → Except BindingError (List (String × Datum))
  | [] => .ok []
  | (k, d) :: r =>
    if k = field then
      if d.isNull then .error (.noContainer className field)
      else do return (k, ← push v d) :: r
    else do return (k, d) :: (← pushInto className field v r)

end

def append (fs : Fields) (v : Datum) (field : Option String) : Except BindingError Fields := do
  let p ← wrappedField m c field
  let (fs, d) ← items m c fs field
  if d.isNull then .error (.noContainer (m.qualifiedName c) p.field)
  return Assoc.put p.field (← push m v d) fs

end Enfold.Instance
