import Enfold.Failure

/-! # Notices

What a run reports while it works: one notice for each event that its user should know of, with
a level and a line of text.
-/

namespace Enfold

inductive Level where
  | info
  | warning
  | error
  deriving DecidableEq, Repr

def Level.name : Level → String
  | info => "INFO"
  | warning => "WARNING"
  | error => "ERROR"

inductive Notice where
  | running (classes : Nat)
  | skipped (path source : String)
  | selected (chosen : Nat) (considered : Int)
  | synthesized (wrappers duplicates : Int)
  | duplicateRemoved (path wrapper : String)
  | headWithoutMembers (path : String)
  | renamed (old new : String)
  | collisionsResolved (count : Nat)
  | summaryLine (text : String)
  | summaryWritten (path : String)
  | optionRejected (cause : OptionError)
  | entryUnmatched (source : String) (line : Nat)
  | modelLoaded (source : String)
  | loadingFailed (text : String)

namespace Notice

def level : Notice → Level
  | duplicateRemoved .. | headWithoutMembers .. | renamed .. => .warning
  | optionRejected .. | entryUnmatched .. | loadingFailed .. => .error
  | _ => .info

def text : Notice → String
  | running n => "Running element wrapper pass over " ++ toString n ++ " class(es)"
  | skipped path source => "Skipping " ++ path ++ ": wrapping suppressed by " ++ source
  | selected k n =>
    toString k ++ " of " ++ toString n ++ " candidate(s) selected for wrapping"
  | synthesized m d =>
    "Created " ++ toString m ++ " wrapper class(es), removed " ++ toString d ++
      " inherited duplicate(s)"
  | duplicateRemoved path wrapper => "Removed " ++ path ++ ": inherits wrapper " ++ wrapper
  | headWithoutMembers path => "Substitution head " ++ path ++ " has no registered members"
  | renamed old new => "Renamed " ++ old ++ " to " ++ new ++ " to avoid a collision"
  | collisionsResolved n => "Resolved " ++ toString n ++ " class name collision(s)"
  | summaryLine t => t
  | summaryWritten path => "Summary written to " ++ path
  | optionRejected e => e.message
  | entryUnmatched source line =>
    "Control entry " ++ source ++ ":" ++ toString line ++ " matches no property"
  | modelLoaded source => "Loaded model description from " ++ source
  | loadingFailed t => t

def line (n : Notice) : String := n.level.name ++ " " ++ n.text

end Notice

/-- What is reported when a configuration error is found. -/
def ConfigError.notices : ConfigError → List Notice
  | options es => es.map .optionRejected
  | entry source line (.unmatched _) => [.entryUnmatched source line]
  | _ => []

end Enfold
