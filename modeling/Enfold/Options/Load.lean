import Enfold.Json.Reader
import Enfold.Options.Token

/-! # Loading options

The layers of options are merged, lowest first: defaults, configuration file, custom entries and
command line. A user may hand over options in any of several forms, with overrides on top.
-/

namespace Enfold.Options

def readFile (files : FileTree) (p : Path) : Except ConfigError RawOptions :=
  if !files.contains p then .error (.fileNotFound p.text)
  else if Text.lower p.extension ≠ ".json" then .error (.fileNotJson p.text)
  else match files.read p with
    | .error e => .error (.fileUnreadable p.text e)
    | .ok s => match Json.parse? s with
      | none => .error (.fileInvalid p.text)
      | some (.object entries) => .ok entries
      | some _ => .error (.fileNotObject p.text)

/-- A token that is no text is an error unless something before it is wrong. -/
def tokensOf (v : Value) : Except Failure RawOptions := do
  match v.parts? with
  | none => .error (.misuse .wrongKind)
  | some parts =>
    let given := parts.map Value.asText?
    let readable := (given.takeWhile Option.isSome).reduceOption
    if readable.length = given.length then (parseTokens readable).mapError .configuration
    else
      discard ((parseTokens (readable ++ [""])).mapError .configuration)
      .error (.misuse .noSuchAttribute)

/-- The layers below the custom entries: defaults and configuration file, if one is named. -/
def lowerLayers (files : FileTree) (configFile : Value) : Except Failure RawOptions := do
  if configFile.isTruthy then
    let p ← (pathOf configFile).mapError .misuse
    let entries ← (readFile files p).mapError .configuration
    return Assoc.merge defaults entries
  else return defaults

def validated (files : FileTree) (o : Options) : Except Failure Options := do
  match ← (o.rejections files).mapError .misuse with
  | [] => return o
  | causes => .error (.configuration (.options causes))

def load (files : FileTree) (custom configFile args : Value) : Except Failure Options := do
  let entries ← custom.toMappingOrEmpty.mapError .misuse
  let tokens ← if args.isTruthy then tokensOf args else pure []
  let lower ← lowerLayers files configFile
  let o ← (ofRaw (Assoc.merge lower (Assoc.merge entries tokens))).mapError .misuse
  validated files o

/-- The forms in which options are handed over. -/
inductive Given where
  /-- Options that were built before, checked or not. -/
  | built (o : Options)
  | value (v : Value)

/-- What is custom in built options counts as an option again if spelled like one. -/
def override (files : FileTree) (o : Options) (overrides : RawOptions) : Except Failure Options :=
  if overrides.isEmpty then .ok o else do
    let custom ← o.custom.toMapping.mapError .misuse
    load files (.object (Assoc.merge (Assoc.merge o.toRaw custom) overrides)) .null .null

/-- A text is the path of a configuration file, and a list is a command line. -/
def build (files : FileTree) (given : Given) (overrides : RawOptions) : Except Failure Options :=
  match given with
  | .built o => override files o overrides
  | .value (.text path) => load files (.object overrides) (.text path) .null
  | .value (.list tokens) => do
    let o ← load files .null .null (.list tokens)
    override files o overrides
  | .value (.object entries) => load files (.object (Assoc.merge entries overrides)) .null .null
  | .value .null => load files (.object overrides) .null .null
  | .value v => .error (.misuse (.optionsKind v.kindName))

end Enfold.Options
