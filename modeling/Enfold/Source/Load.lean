import Enfold.Json.Reader
import Enfold.Model.Build
import Enfold.Notice
import Enfold.Source.Address

/-! # Loading a model

The description of a model is read from a file or fetched from an address. What can go wrong on the
way is told apart, and every outcome is reported.
-/

namespace Enfold

inductive Source where
  | file (path : Path)
  | address (url : String)
  deriving DecidableEq, Repr

structure Reply where
  status : Int := 200
  body : String := ""
  deriving Repr

inductive FetchError where
  | timeout
  /-- The reply was refused, but it is not known with which status. -/
  | refused
  | other (text : String)
  deriving Repr

inductive LoadError where
  | noSource
  | twoSources
  | fileNotFound (path : String)
  | fileNotJson (path : String)
  | fileUnreadable (path : String) (cause : FileError)
  | addressIncomplete (url : String)
  | addressIll (cause : Address.AddressError)
  | timeout (url : String)
  | status (code : Int) (url : String)
  | request (url text : String)
  | description (source : String) (cause : DescriptionError)
  | misuse (cause : Misuse)

namespace LoadError

def message : LoadError → String
  | noSource => "Either file_path or url must be provided"
  | twoSources => "Cannot specify both file_path and url"
  | fileNotFound p => "File not found: " ++ p
  | fileNotJson p => "Invalid JSON in file " ++ p ++ ": "
  | fileUnreadable p e => "Error reading file " ++ p ++ ": " ++ e.message
  | addressIncomplete u => "Invalid URL: " ++ u
  | addressIll e => e.message
  | timeout u => "Request timeout for URL: " ++ u
  | status code u => "HTTP error " ++ toString code ++ " for URL: " ++ u
  | request u t => "Request error for URL " ++ u ++ ": " ++ t
  | description _ e => e.message
  | misuse m => m.message

def notices : LoadError → List Notice
  | e@(fileNotFound _) | e@(fileNotJson _) | e@(fileUnreadable ..) | e@(timeout _) | e@(status ..)
  | e@(request ..) => [.loadingFailed e.message]
  | addressIncomplete u => [.loadingFailed ("Invalid URL format: " ++ u)]
  | description source _ => [.modelLoaded source]
  | noSource | twoSources | addressIll _ | misuse _ => []

end LoadError

namespace Source

/-- The source that is asked for, which must be exactly one. -/
def choose (file url : Value) : Except LoadError Source :=
  match file.isTruthy, url.isTruthy with
  | false, false => .error .noSource
  | true, true => .error .twoSources
  | true, false =>
    match file with
    | .text s => .ok (.file (Path.ofText s))
    | _ => .error (.misuse .wrongKind)
  | false, true =>
    match url with
    | .text s => .ok (.address s)
    | _ => .error (.misuse .noSuchAttribute)

def name : Source → String
  | file path => path.text
  | address url => url

/-- Refuses an address that cannot be fetched from. -/
def checkAddress (url : String) : Except LoadError Unit := do
  if !(← (Address.isComplete url).mapError .addressIll) then .error (.addressIncomplete url)

/-- A mark at the start of a text that tells how it is encoded. -/
def encodingMark : Char := '\uFEFF'

def valueOfReply (url : String) (r : Reply) : Except LoadError Value :=
  if 400 ≤ r.status ∧ r.status < 600 then .error (.status r.status url)
  else
    let body := r.body.toList
    let text := if body.head? = some encodingMark && body.length ≠ 1 then body.drop 1 else body
    match Json.parse? (String.ofList text) with
    | some v => .ok v
    | none => .error (.request url "")

/-- The value that a source holds, with what was fetched from its address. -/
def value (files : FileTree) (fetched : Except FetchError Reply) : Source → Except LoadError Value
  | file path =>
    if !files.contains path then .error (.fileNotFound path.text)
    else match files.read path with
      | .error e => .error (.fileUnreadable path.text e)
      | .ok text =>
        match Json.parse? text with
        | some v => .ok v
        | none => .error (.fileNotJson path.text)
  | address url => do
    checkAddress url
    match fetched with
    | .ok r => valueOfReply url r
    | .error .timeout => .error (.timeout url)
    | .error .refused => .error (.misuse .noSuchAttribute)
    | .error (.other text) => .error (.request url text)

/-- The address that has to be fetched from, if there is one. -/
def request? : Source → Option String
  | file _ => none
  | address url => match checkAddress url with
    | .ok _ => some url
    | .error _ => none

def load (files : FileTree) (fetched : Except FetchError Reply) (s : Source) :
    Except LoadError Model := do
  let v ← s.value files fetched
  (Model.ofValue v).mapError (.description s.name)

end Source
end Enfold
