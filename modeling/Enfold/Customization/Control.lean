import Enfold.Customization.Settings
import Enfold.Model.Walk
import Enfold.Pattern.Compiler

/-! # Control files

A control file has one entry a line: the path of a property, or a pattern between slashes, then an
equals sign or a colon, then the settings for what the path matches. A number sign starts a
comment at the start of a line or after a blank, but not within a pattern.
-/

namespace Enfold

structure ControlEntry where
  line : Nat
  path : String
  settings : Settings
  /-- The pattern of a path between slashes. -/
  pattern : Option Matcher

structure ControlFile where
  entries : List ControlEntry
  source : String

namespace ControlFile

/-- What follows the sign that parts a path from its settings, if that comes next. -/
def afterSign? (s : List Char) : Option (List Char) :=
  match s.dropWhile Text.isBlank with
  | c :: r => if c = '=' || c = ':' then some r else none
  | [] => none

/-- Parts a text at the first slash that a sign follows. -/
def cutAtFirstSlash? : List Char → Option (List Char × List Char)
  | [] => none
  | c :: r =>
    if c = '/' && (afterSign? r).isSome then some ([], r)
    else (cutAtFirstSlash? r).map fun p => (c :: p.1, p.2)

def cutAtLastSlash? : List Char → Option (List Char × List Char)
  | [] => none
  | c :: r =>
    match cutAtLastSlash? r with
    | some p => some (c :: p.1, p.2)
    | none => if c = '/' && (afterSign? r).isSome then some ([], r) else none

/-- The text up to a number sign after a blank, and without that blank. -/
def cutComment : List Char → List Char
  | [] => []
  | c :: r => if Text.isBlank c && r.head? = some '#' then [] else c :: cutComment r

def dropComment (s : List Char) : List Char := if s.head? = some '#' then [] else cutComment s

/-- A pattern at the start of a line up to its second slash, and the rest. -/
def splitPattern (raw : List Char) : List Char × List Char :=
  match raw.dropWhile Text.isBlank with
  | '/' :: r =>
    match cutAtFirstSlash? r with
    | some (body, rest) => (raw.takeWhile Text.isBlank ++ '/' :: body ++ ['/'], rest)
    | none => ([], raw)
  | _ => ([], raw)

def stripComment (raw : List Char) : List Char :=
  let (head, rest) := splitPattern raw
  Text.trimWhere Text.isBlank (head ++ dropComment rest)

def splitPatternEntry? (line : List Char) : Option (List Char × List Char) :=
  match line with
  | '/' :: r =>
    match cutAtLastSlash? r with
    | some (c :: body, rest) => (afterSign? rest).map fun tokens => ('/' :: c :: body ++ ['/'], tokens)
    | _ => none
  | _ => none

def isPlainPathChar (c : Char) : Bool := !Text.isBlank c && c ≠ '=' && c ≠ ':'

def splitPlainEntry? (line : List Char) : Option (List Char × List Char) :=
  let path := line.takeWhile isPlainPathChar
  if path.isEmpty then none else (afterSign? (line.dropWhile isPlainPathChar)).map (path, ·)

def splitEntry? (line : List Char) : Option (List Char × List Char) :=
  splitPatternEntry? line <|> splitPlainEntry? line

def isPathSegment : List Char → Bool
  | [] => false
  | c :: r => Text.isIdentifierStart c && r.all fun c => Text.isWordChar c || c = '-'

/-- The path of a property names its class as well. -/
def isPropertyPath (path : List Char) : Bool :=
  let segments := Text.splitAt '.' path
  2 ≤ segments.length && segments.all isPathSegment

def flagTokens : Assoc String Setting :=
  [("wrap", .wrap true), ("include", .wrap true), ("skip", .wrap false), ("exclude", .wrap false),
    ("no-wrap", .wrap false), ("nested", .nested true), ("toplevel", .nested false),
    ("plural", .plural true), ("singular", .plural false)]

def valueTokens : Assoc String (String → Setting) :=
  [("class", .className), ("field", .fieldName), ("collection", .collection),
    ("instantiate", .instantiate)]

def setting (path token : String) : Except EntryError Setting :=
  match Text.cutAt '=' token.toList with
  | (_, none) =>
    match Assoc.get? token flagTokens with
    | some s => .ok s
    | none => .error (.unknownDirective token path)
  | (key, some value) =>
    match Assoc.get? (String.ofList key) valueTokens with
    | none => .error (.unknownDirective token path)
    | some make =>
      if value.isEmpty then .error (.unknownDirective token path)
      else (make (String.ofList value)).checked.mapError (.invalidSetting · path)

section Compiler

variable {ε : Type} (compile : Compiler ε)

/-- The pattern of a path between slashes; any other path must name a property. -/
def patternOf (path : List Char) : Except (EntryError ⊕ ε) (Option Matcher) :=
  if path.head? = some '/' then
    match compile.matcher (String.ofList ((path.drop 1).dropLast)) with
    | .ok p => .ok (some p)
    | .error .invalid => .error (.inl (.invalidPattern (String.ofList path)))
    | .error (.foreign e) => .error (.inr e)
  else if isPropertyPath path then .ok none
  else .error (.inl (.malformedPath (String.ofList path)))

def parseLine (number : Nat) (line : List Char) : Except (EntryError ⊕ ε) ControlEntry :=
  match splitEntry? line with
  | none => .error (.inl (.malformed (String.ofList line)))
  | some (path, rest) => do
    let pattern ← patternOf compile path
    let tokens := Text.words (String.ofList rest)
    let path := String.ofList path
    if tokens.isEmpty then .error (.inl (.noDirective path))
    let settings ← (tokens.mapM (setting path)).mapError .inl
    return { line := number, path, settings := Settings.ofList settings, pattern }

def parseLines (source : String) :
    List (Nat × List Char) → Except (ConfigError ⊕ ε) (List ControlEntry)
  | [] => .ok []
  | (number, raw) :: rest =>
    let line := stripComment raw
    if line.isEmpty then parseLines source rest else do
      let entry ← (parseLine compile number line).mapError (Sum.map (.entry source number) id)
      return entry :: (← parseLines source rest)

/-- The control file of a text, with the failures of the compiler as they come. -/
def parseWith (text : String) (source : String) : Except (ConfigError ⊕ ε) ControlFile := do
  let numbered := (Text.splitLines text.toList).zipIdx.map fun p => (p.2 + 1, p.1)
  return ⟨← parseLines compile source numbered, source⟩

end Compiler

/-- The control file of a text, by the compiler at hand. -/
def parse (text : String) (source : String) : Except ConfigError ControlFile :=
  (parseWith Pattern.compile text source).mapError (Sum.elim id Empty.elim)

def load (files : FileTree) (path : Path) : Except ConfigError ControlFile :=
  match files.read path with
  | .ok text => parse text path.text
  | .error e => .error (.controlUnreadable path.text e)

end ControlFile

/-- The path of a property, and that without the package. -/
def Model.candidatePaths (m : Model) (p : PropertyId) : List String :=
  match (m.prop p).owner with
  | some c => [m.path p, m.localName c ++ "." ++ (m.prop p).name]
  | none => [(m.prop p).name]

namespace ControlEntry

def holdsFor (e : ControlEntry) (m : Model) (p : PropertyId) : Bool :=
  match e.pattern with
  | some pattern => (m.candidatePaths p).any pattern.accepts
  | none => (m.candidatePaths p).contains e.path

def isMatched (e : ControlEntry) (m : Model) : Bool := m.walkProperties.any (e.holdsFor m)

end ControlEntry

namespace ControlFile

/-- What the entries that match a property say together; later lines win. -/
def settingsFor (f : ControlFile) (m : Model) (p : PropertyId) : Settings :=
  (f.entries.filter (·.holdsFor m p)).foldl (fun acc e => e.settings.orElse acc) {}

/-- Which entries match, up to the first that does not. -/
def matchedFlags (f : ControlFile) (m : Model) : List Bool :=
  let good := (f.entries.takeWhile fun e => e.isMatched m).length
  f.entries.zipIdx.map fun e => e.2 < good

/-- Refuses the first entry that matches no property. -/
def checkReferences (f : ControlFile) (m : Model) : Except ConfigError Unit :=
  match f.entries.find? fun e => !e.isMatched m with
  | some e => .error (.entry f.source e.line (.unmatched e.path))
  | none => .ok ()

end ControlFile
end Enfold
