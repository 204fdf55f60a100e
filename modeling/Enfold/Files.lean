import Enfold.Text.Blank
import Enfold.Text.Case
import Enfold.Text.Identifier
import Enfold.Value.Shown

/-! # Files

The files that options, control entries, models and summaries are read from and written to, as a
tree of texts under the working directory. A path is given as a text and read segment by segment.
-/

namespace Enfold

inductive FileError where
  | notFound (path : String)
  | notDirectory (path : String)
  | isDirectory (path : String)
  | alreadyThere (path : String)
  deriving DecidableEq, Repr

namespace FileError

def message : FileError → String
  | notFound p => "[Errno 2] No such file or directory: " ++ Text.quoted p
  | alreadyThere p => "[Errno 17] File exists: " ++ Text.quoted p
  | notDirectory p => "[Errno 20] Not a directory: " ++ Text.quoted p
  | isDirectory p => "[Errno 21] Is a directory: " ++ Text.quoted p

end FileError

/-- A path without empty segments and without those that stay where they are. -/
structure Path where
  absolute : Bool
  segments : List String
  deriving DecidableEq, Repr

namespace Path

def ofText (s : String) : Path where
  absolute := s.toList.head? = some '/'
  segments := ((Text.splitAt '/' s.toList).map String.ofList).filter fun t => t ≠ "" ∧ t ≠ "."

def text (p : Path) : String :=
  let body := "/".intercalate p.segments
  if p.absolute then "/" ++ body else if body = "" then "." else body

/-- The last segment from its last point on, if letters stand on both sides. -/
def extension (p : Path) : String :=
  match p.segments.getLast? with
  | none => ""
  | some name =>
    match Text.cutAtLast '.' name.toList with
    | (some before, after) =>
      if before.isEmpty || after.isEmpty then "" else String.ofList ('.' :: after)
    | (none, _) => ""

end Path

inductive FileNode where
  | file (text : String)
  | directory
  deriving DecidableEq, Repr

/-- Files and directories by their segments under the working directory. -/
abbrev FileTree := Assoc (List String) FileNode

namespace FileTree

/-- A directory is there as soon as something lies below it. -/
def node? (t : FileTree) (place : List String) : Option FileNode :=
  match Assoc.get? place t with
  | some n => some n
  | none =>
    if place.isEmpty || t.any fun e => place.isPrefixOf e.1 then some .directory else none

def walk (t : FileTree) (path : String) (place : List String) :
    List String → Except FileError (List String)
  | [] => .ok place
  | s :: r =>
    match node? t place with
    | some .directory =>
      if s = ".." then
        if place.isEmpty then .error (.notFound path) else walk t path place.dropLast r
      else walk t path (place ++ [s]) r
    | some (.file _) => .error (.notDirectory path)
    | none => .error (.notFound path)

def find (t : FileTree) (p : Path) : Except FileError FileNode := do
  if p.absolute then .error (.notFound p.text)
  let place ← walk t p.text [] p.segments
  match node? t place with
  | some n => .ok n
  | none => .error (.notFound p.text)

def contains (t : FileTree) (p : Path) : Bool :=
  match find t p with
  | .ok _ => true
  | .error _ => false

def isFile (t : FileTree) (p : Path) : Bool :=
  match find t p with
  | .ok (.file _) => true
  | _ => false

/-- The text of a file, with every line end written as a line feed. -/
def read (t : FileTree) (p : Path) : Except FileError String :=
  match find t p with
  | .ok (.file s) => .ok (String.ofList (Text.foldNewlines s.toList))
  | .ok .directory => .error (.isDirectory p.text)
  | .error e => .error e

/-- Makes a directory and those above it where they are missing. -/
def makeDirectory (t : FileTree) (place : List String) : Except FileError FileTree :=
  let above := (List.range place.length).map place.take
  let isFileAt (q : List String) : Bool :=
    match node? t q with
    | some (.file _) => true
    | _ => false
  if above.any isFileAt then .error (.notDirectory ("/".intercalate place))
  else if isFileAt place then .error (.alreadyThere ("/".intercalate place))
  else if place.isEmpty || (node? t place).isSome then .ok t
  else .ok (Assoc.put place .directory t)

/-- Writes a file, making the directories above it. -/
def write (t : FileTree) (p : Path) (text : String) : Except FileError FileTree := do
  let t ← makeDirectory t p.segments.dropLast
  match node? t p.segments with
  | some .directory => .error (.isDirectory p.text)
  | _ => .ok (Assoc.put p.segments (.file text) t)

end FileTree
end Enfold
