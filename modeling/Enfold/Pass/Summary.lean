import Enfold.Naming.Suffix
import Enfold.Value.Basic

/-! # Summaries

A run counts what it considers, what it changes and what it removes, and notes every name that it
had to change. The counts can be shown as three lines, as a text with the renames, or as a table.
-/

namespace Enfold

structure Counters where
  candidates : Int := 0
  modifications : Int := 0
  deletions : Int := 0
  renames : List Naming.Rename := []
  deriving DecidableEq, Repr, Inhabited

namespace Counters

def counted (n noun : String) : String := n ++ " " ++ noun ++ "(s)"

def lines (c : Counters) : List String :=
  [counted (toString c.candidates) "candidate" ++ " being considered",
    counted (toString c.modifications) "modification" ++ " to original code",
    counted (toString c.deletions) "deletion" ++ " from original code"]

def renameLine (r : Naming.Rename) : String :=
  "renamed " ++ r.requested ++ " to " ++ r.assigned ++
    (match r.scope.filter (· ≠ "") with
      | some s => " in " ++ s
      | none => "")

def text (c : Counters) : String :=
  String.join ((c.lines ++ c.renames.map renameLine).map (· ++ "\n"))

def rows (c : Counters) : List (String × String) :=
  [("Candidates considered", toString c.candidates), ("Modifications", toString c.modifications),
    ("Deletions", toString c.deletions), ("Renames", toString c.renames.length)]

def padLeft (width : Nat) (s : String) : String :=
  String.ofList (List.replicate (width - s.length) ' ') ++ s

def padRight (width : Nat) (s : String) : String :=
  s ++ String.ofList (List.replicate (width - s.length) ' ')

/-- A text in the middle of a line, or just left of it. -/
def centred (width : Nat) (s : String) : String :=
  padRight width (padLeft (s.length + (width - s.length) / 2) s)

/-- A table of two columns that are as wide as their widest cells. -/
def table (c : Counters) : String :=
  let heading := ("Metric", "Count")
  let cells := heading :: c.rows
  let left := cells.foldl (fun w r => max w r.1.length) 0
  let right := cells.foldl (fun w r => max w r.2.length) 0
  let rule (start middle finish : String) : String :=
    let bar (n : Nat) := String.ofList (List.replicate (n + 2) '─')
    start ++ bar left ++ middle ++ bar right ++ finish
  let row (r : String × String) (second : String) : String :=
    "│ " ++ padRight left r.1 ++ " │ " ++ second ++ " │"
  let out := centred (left + right + 7) "Element wrapper summary" :: rule "╭" "┬" "╮" ::
    row heading (padLeft right heading.2) :: rule "├" "┼" "┤" ::
    c.rows.map (fun r => row r (padLeft right r.2)) ++ [rule "╰" "┴" "╯"]
  String.join (out.map (· ++ "\n"))

end Counters
end Enfold
