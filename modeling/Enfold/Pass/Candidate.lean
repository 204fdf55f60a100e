import Enfold.Customization.Directive
import Enfold.Naming.Derive
import Enfold.Notice
import Enfold.Pass.Summary

/-! # Candidates

A property that may hold many values is a candidate for wrapping, unless its directive says
otherwise. Candidates are chosen class by class before anything is changed. What is done with one
of them is kept in a record, which goes through four states in a fixed order.
-/

namespace Enfold

/-- A property that is to be wrapped. -/
structure Candidate where
  owner : ClassId
  prop : PropertyId
  directive : Directive
  /-- The path that the property had when it was chosen. -/
  path : String
  deriving Inhabited

def Candidate.of (m : Model) (owner : ClassId) (prop : PropertyId) (d : Directive) : Candidate :=
  ⟨owner, prop, d, m.path prop⟩

inductive CandidateState where
  | selected
  | newClassCreated
  | propertyRelinked
  | finalized
  deriving DecidableEq, Repr, Inhabited

namespace CandidateState

def name : CandidateState → String
  | selected => "selected"
  | newClassCreated => "new_class_created"
  | propertyRelinked => "property_relinked"
  | finalized => "finalized"

def ofName? (s : String) : Option CandidateState :=
  [selected, newClassCreated, propertyRelinked, finalized].find? (·.name = s)

def next? : CandidateState → Option CandidateState
  | selected => some newClassCreated
  | newClassCreated => some propertyRelinked
  | propertyRelinked => some finalized
  | finalized => none

end CandidateState

structure Record where
  candidate : Candidate
  state : CandidateState := .selected
  wrapper : Option ClassId := none
  /-- The property that took the place of the candidate. -/
  reference : Option PropertyId := none
  /-- The candidate was dropped because a base class has it already. -/
  deleted : Bool := false
  explicitName : Bool := false
  deriving Inhabited

/-- Moves a record on from the state that it is expected to be in. -/
def Record.advance (r : Record) (expected : CandidateState) : Except Failure Record :=
  if r.state = expected then
    match expected.next? with
    | some s => .ok { r with state := s }
    | none => .error (.misuse .noSuchKey)
  else .error (.state ⟨r.candidate.path, expected.name, r.state.name⟩)

structure PassState where
  model : Model
  counters : Counters := {}
  /-- The wrapper of each property that was wrapped, by its class and its element. -/
  wrapped : Assoc (ClassId × String) ClassId := []
  files : FileTree := []
  /-- What was reported so far, in order. -/
  notices : List Notice := []
  deriving Inhabited

/-- A run may stop at a failure and keeps what was done before it. -/
abbrev PassM := EStateM Failure PassState

namespace PassM

def report (n : Notice) : PassM Unit :=
  modify fun s => { s with notices := s.notices ++ [n] }

def reportIf (worth : Bool) (n : Notice) : PassM Unit := if worth then report n else pure ()

def setModel (m : Model) : PassM Unit := modify fun s => { s with model := m }

def count (f : Counters → Counters) : PassM Unit :=
  modify fun s => { s with counters := f s.counters }

/-- Takes over a result, or stops at the cause of its failure. -/
def require {ε α : Type} (f : ε → Failure) (e : Except ε α) : PassM α :=
  match e with
  | .ok a => pure a
  | .error e => throw (f e)

/-- A configuration error is reported before it stops the run. -/
def configured {α : Type} (e : Except ConfigError α) : PassM α :=
  match e with
  | .ok a => pure a
  | .error e => do
    e.notices.forM report
    throw (.configuration e)

/-- A free name in a scope; that it had to be changed is noted. -/
def claimName (limit : Value) (name : String) (taken : List String) (scope : Option String) :
    PassM String := do
  let (assigned, rename) ← require .name (Naming.disambiguate limit name taken scope)
  count fun c => { c with renames := c.renames ++ rename.toList }
  return assigned

end PassM

def considerProperty (z : Customization) (c : ClassId) (chosen : List Candidate) (p : PropertyId) :
    PassM (List Candidate) := do
  let m := (← get).model
  if !(m.prop p).isMultiValued then return chosen
  PassM.count fun k => { k with candidates := k.candidates + 1 }
  let d ← PassM.configured (z.resolve m p)
  if d.wrap then return chosen ++ [Candidate.of m c p d]
  PassM.report (.skipped (m.path p) d.source)
  return chosen

def considerClass (z : Customization) (chosen : List Candidate) (c : ClassId) :
    PassM (List Candidate) := do
  let d := (← get).model.decl c
  if d.isWrapper then return chosen
  d.properties.foldlM (considerProperty z c) chosen

/-- All candidates that are to be wrapped, in the order of their declaration. -/
def selectCandidates (z : Customization) : PassM (List Candidate) := do
  let chosen ← (← get).model.walk.foldlM (considerClass z) []
  PassM.report (.selected chosen.length (← get).counters.candidates)
  return chosen

end Enfold
