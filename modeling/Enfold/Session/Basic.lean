import Enfold.Binding.Heap
import Enfold.Model.Assign
import Enfold.Pass.Run

/-! # Sessions

A session keeps a model under the hands of its user. It remembers what was wrapped and counted so
far, the properties that were taken out of their classes, and bound data by the names of slots.
Its steps find classes, properties and data by reference: a name or a place.
-/

namespace Enfold

structure Session where
  model : Model
  naming : Naming := {}
  counters : Counters := {}
  wrapped : Assoc (ClassId × String) ClassId := []
  /-- The properties that were taken out of their classes, in order. -/
  held : List PropertyId := []
  heap : Heap := {}
  slots : Assoc String Datum := []

inductive StepError where
  | noSuchClass
  | noSuchProperty
  | noSuchObject
  | noEpisode
  | noSuchStep
  | description (cause : DescriptionError)
  | binding (cause : BindingError)
  | failure (cause : Failure)

def StepError.misuse (m : Misuse) : StepError := .failure (.misuse m)

def StepError.ownership (e : OwnershipError) : StepError := .failure (.ownership e)

abbrev StepM := Except StepError

/-- An item of a list; a negative place counts from the end. -/
def itemAt? {α : Type} (xs : List α) (n : Int) : Option α :=
  let place := if n < 0 then xs.length + n else n
  if 0 ≤ place then xs[place.toNat]? else none

namespace StepM

def found {α : Type} (e : StepError) : Option α → StepM α
  | some a => .ok a
  | none => .error e

end StepM

namespace Model

/-- The class that a qualified name or a place in the walk means. -/
def classAt (m : Model) (v : Value) : StepM ClassId :=
  StepM.found .noSuchClass <| match v with
    | .text name => m.findClass? name
    | .int n => itemAt? m.walk n
    | _ => none

def classAtIfAny (m : Model) (v : Value) : StepM (Option ClassId) :=
  if v.isNull then .ok none else (m.classAt v).map some

def assignClass (m : Model) (c : ClassId) (member : String) (v : Value) : StepM Model :=
  if member = "base" then do
    let b ← m.classAtIfAny v
    return m.modifyClass c fun d => { d with base := b }
  else .ok (m.modifyClass c fun d => d.assign member v)

def assignProperty (m : Model) (p : PropertyId) (member : String) (v : Value) : StepM Model :=
  if member = "reference" then do
    let c ← m.classAtIfAny v
    return m.modifyProperty p fun q => { q with reference := c }
  else do
    let q ← ((m.prop p).assign member v).mapError .misuse
    return m.modifyProperty p fun _ => q

end Model

namespace Session

variable (s : Session)

/-- A property by its slot, or by the element or the place in its class. -/
def propertyAt (v : Value) : StepM PropertyId := do
  match v.member? "held" with
  | some n => StepM.found .noSuchProperty ((n.asInt?).bind (itemAt? s.held))
  | none =>
    let c ← s.model.classAt ((v.member? "class").getD .null)
    StepM.found .noSuchProperty <| match (v.member? "prop").getD .null with
      | .text name => s.model.propertyNamed? c name
      | .int n => itemAt? (s.model.decl c).properties n
      | _ => none

/-- The datum that a path means: a slot, then fields and places. -/
def datumAt (v : Value) : StepM Datum :=
  StepM.found .noSuchObject <| match v.items? with
    | some (.text slot :: keys) =>
      keys.foldlM (fun d k => s.heap.part? d k) =<< Assoc.get? slot s.slots
    | _ => none

mutual

/-- The datum of a value; a path leads to one that is there. -/
def datumOf : Value → StepM Datum
  | .list xs => do return .container .list (← dataOf xs)
  | .object ms =>
    match Assoc.get? "obj" ms with
    | some path => s.datumAt path
    | none => dequeOf (.object ms) ms
  | v => .ok (.scalar v)

def dequeOf (whole : Value) : List (String × Value) → StepM Datum
  | [] => .ok (.scalar whole)
  | (k, .list xs) :: r =>
    if k = "deque" then do return .container .deque (← dataOf xs) else dequeOf whole r
  | (k, _) :: r => if k = "deque" then .ok (.scalar whole) else dequeOf whole r

def dataOf : List Value → StepM (List Datum)
  | [] => .ok []
  | v :: r => do
    let d ← datumOf v
    return d :: (← dataOf r)

end

/-- Runs a part of a pass and remembers what it did, even if it fails. -/
def inPass {α : Type} (job : PassM α) : Except Failure α × Session × List Notice :=
  let state : PassState := { model := s.model, counters := s.counters, wrapped := s.wrapped }
  let after (t : PassState) : Session :=
    { s with model := t.model, counters := t.counters, wrapped := t.wrapped }
  match job.run state with
  | .ok a t => (.ok a, after t, t.notices)
  | .error e t => (.error e, after t, t.notices)

def keep (slot : String) (d : Datum) : Session × Datum :=
  let (h, d) := s.heap.store d
  ({ s with heap := h, slots := Assoc.put slot d s.slots }, d)

end Session
end Enfold
