import Enfold.Options.Load
import Enfold.Pass.Placement
import Enfold.Pass.Wrapper

/-! # The run

A run checks every customization, chooses the candidates, wraps them, settles the names of all
classes, and reports what it did. Nothing is changed before the choice is made.
-/

namespace Enfold

structure PassResult where
  records : List Record
  /-- The classes that had to be renamed in the end. -/
  renamed : List ClassId
  counters : Counters

def PassResult.wrappers (r : PassResult) : List ClassId :=
  r.records.filterMap fun e => if e.deleted then none else e.wrapper

structure Pass where
  options : Options
  control : Option ControlFile
  naming : Naming

namespace Pass

/-- Loads the control file that the options name, unless another is at hand. -/
def setUp (files : FileTree) (options : Options) (control : Option ControlFile)
    (naming : Option Naming) : Except Failure Pass := do
  let control ← match control with
    | some f => pure (some f)
    | none =>
      if options.control.isTruthy then
        let path ← (Options.pathOf options.control).mapError .misuse
        some <$> (ControlFile.load files path).mapError .configuration
      else pure none
  return { options, control, naming := naming.getD { maxSuffix := options.maxSuffix } }

def writeSummary (path : Value) : PassM Unit := do
  let path ← PassM.require .misuse (Options.pathOf path)
  let s ← get
  let files ← PassM.require .file (s.files.write path s.counters.text)
  modify fun s => { s with files }
  PassM.report (.summaryWritten path.text)

/-- Checks everything and chooses the candidates. -/
def choose (p : Pass) : PassM (List Candidate) := do
  let m := (← get).model
  let z : Customization := ⟨p.options, p.control⟩
  PassM.report (.running m.walk.length)
  PassM.configured (z.validate m)
  selectCandidates z

def conclude (p : Pass) (counters : Counters) : PassM Unit := do
  counters.lines.forM fun l => PassM.report (.summaryLine l)
  if p.options.summary.isTruthy then writeSummary p.options.summary

def run (p : Pass) : PassM PassResult := do
  let candidates ← p.choose
  let records ← synthesizeAll p.naming candidates
  let renamed ← placeClasses p.naming
  let counters := (← get).counters
  p.conclude counters
  return { records, renamed, counters }

/-- Takes over settings that had to be made before a run. Rejected options are reported. -/
def prepared {α : Type} (e : Except Failure α) : PassM α :=
  match e with
  | .ok a => pure a
  | .error (.configuration e) => PassM.configured (.error e)
  | .error e => throw e

/-- Rewrites the model with options in any form and the control file of a path. -/
def wrapElements (given : Options.Given) (controlPath : Option String) (overrides : RawOptions) :
    PassM PassResult := do
  let overrides := match controlPath with
    | some path => Assoc.put "control" (.text path) overrides
    | none => overrides
  let files := (← get).files
  let options ← prepared (Options.build files given overrides)
  run (← prepared (setUp files options none none))

/-- Rewrites the model with a control file and a naming at hand. -/
def runWith (given : Options.Given) (overrides : RawOptions) (control : Option ControlFile)
    (naming : Option Naming) : PassM PassResult := do
  let files := (← get).files
  let options ← prepared (Options.build files given overrides)
  run (← prepared (setUp files options control naming))

end Pass
end Enfold
