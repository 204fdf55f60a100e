import Enfold.Binding.Instance

/-! # Shared data

Objects and containers that live on between operations are kept in cells, so that one of them can
be reached by several ways and a change is seen from all of them. A datum is taken out of its
cells before it is shown or written.
-/

namespace Enfold

inductive Cell where
  | object (cls : ClassId) (values : Fields)
  | container (kind : ContainerKind) (items : List Datum)
  deriving Inhabited

structure Heap where
  cells : Array Cell := #[]
  deriving Inhabited

namespace Heap

def cell? (h : Heap) (i : Nat) : Option Cell := h.cells[i]?

def allocate (h : Heap) (c : Cell) : Heap × Datum :=
  ({ cells := h.cells.push c }, .shared h.cells.size)

def cellAt? (h : Heap) : Datum → Option (Nat × Cell)
  | .shared i => (h.cell? i).map (i, ·)
  | _ => none

def objectAt? (h : Heap) (d : Datum) : Option (Nat × ClassId × Fields) :=
  match h.cellAt? d with
  | some (i, .object c values) => some (i, c, values)
  | _ => none

def setCell (h : Heap) (i : Nat) (c : Cell) : Heap := { cells := h.cells.setIfInBounds i c }

mutual

/-- Puts an object or a container and all its parts into cells of their own. -/
def store (h : Heap) : Datum → Heap × Datum
  | .object c values =>
    let (h, values) := storeFields h values
    h.allocate (.object c values)
  | .container k items =>
    let (h, items) := storeItems h items
    h.allocate (.container k items)
  | d => (h, d)

def storeFields (h : Heap) : List (String × Datum) → Heap × List (String × Datum)
  | [] => (h, [])
  | (k, d) :: r =>
    let (h, d) := store h d
    let (h, r) := storeFields h r
    (h, (k, d) :: r)

def storeItems (h : Heap) : List Datum → Heap × List Datum
  | [] => (h, [])
  | d :: r =>
    let (h, d) := store h d
    let (h, r) := storeItems h r
    (h, d :: r)

end

/-- A datum with what its cells hold in place of them, as deep as `n` steps lead. -/
def unshare (h : Heap) : (n : Nat) → Datum → Datum
  | n + 1, .shared i =>
    match h.cell? i with
    | some (.object c values) => .object c (values.map fun e => (e.1, unshare h n e.2))
    | some (.container k items) => .container k (items.map (unshare h n))
    | none => .shared i
  | _, d => d

/-- A datum without shared parts, unless the way to them runs in a circle. -/
def load (h : Heap) (d : Datum) : Datum := h.unshare (h.cells.size + 1) d

variable (m : Model)

def fieldsOf (h : Heap) (d : Datum) : Except BindingError Fields :=
  match h.objectAt? d with
  | some (_, _, values) => .ok values
  | none => .error (.misuse .noSuchAttribute)

/-- The container of a field of an object, which is made if need be. -/
def items (h : Heap) (d : Datum) (field : Option String) : Except BindingError (Heap × Datum) :=
  match h.objectAt? d with
  | some (i, c, values) => do
    let p ← Instance.wrappedField m c field
    let (values, d) ← Instance.items m c values field
    let (h, d) := h.store d
    let values := if Assoc.contains p.field values then Assoc.put p.field d values else values
    return (h.setCell i (.object c values), d)
  | none => .error (.misuse .noSuchAttribute)

def setItems (h : Heap) (d items : Datum) (field : Option String) : Except BindingError Heap :=
  match h.objectAt? d with
  | some (i, c, values) => do
    return h.setCell i (.object c (← Instance.setItems m c values items field))
  | none => .error (.misuse .noSuchAttribute)

/-- Sets the value of a field, whatever the class of the object says of it. -/
def put (h : Heap) (d : Datum) (field : String) (v : Datum) : Except BindingError Heap :=
  match h.objectAt? d with
  | some (i, c, values) => .ok (h.setCell i (.object c (Assoc.put field v values)))
  | none => .error (.misuse .noSuchAttribute)

/-- Appends to a container, or to what an object holds, for at most `n` steps. -/
def pushTo (v : Datum) : (n : Nat) → Heap → Datum → Option String → Except BindingError Heap
  | 0, _, _, _ => .error (.misuse .wrongKind)
  | n + 1, h, d, field =>
    match h.cellAt? d with
    | some (i, .container k items) => .ok (h.setCell i (.container k (items ++ [v])))
    | some (_, .object c _) => do
      let p ← Instance.wrappedField m c field
      let (h, inner) ← h.items m d field
      match inner with
      | .shared _ => pushTo v n h inner none
      | inner =>
        if inner.isNull then .error (.noContainer (m.qualifiedName c) p.field)
        else h.put d p.field (← Instance.push m v inner)
    | none => .error (.misuse .noSuchAttribute)

/-- Appends to a field of an object, which a container by itself has none of. -/
def appendTo (h : Heap) (d v : Datum) (field : Option String) : Except BindingError Heap :=
  match h.cellAt? d with
  | some (_, .container ..) => .error (.misuse .wrongKind)
  | _ => h.pushTo m v (h.cells.size + 2) d field

def part? (h : Heap) (d : Datum) (key : Value) : Option Datum :=
  match d, key with
  | .shared i, .text field =>
    match h.cell? i with
    | some (.object _ values) => Assoc.get? field values
    | _ => none
  | .shared i, .int n =>
    match h.cell? i with
    | some (.container _ items) =>
      let place := if n < 0 then items.length + n else n
      if 0 ≤ place then items[place.toNat]? else none
    | _ => none
  | _, _ => none

end Heap
end Enfold
