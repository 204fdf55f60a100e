import Enfold.Collection
import Enfold.Files
import Enfold.Naming.Plural

/-! # Failures

Everything that can go wrong, as causes. The wording of each stands in its `message`; what a
reader of the log sees besides is said where the work is done.
-/

namespace Enfold

/-- A value does not have the shape that an operation needs. -/
inductive Misuse where
  | wrongKind
  | noSuchAttribute
  | noSuchKey
  | outOfRange
  | invalid (text : String)
  /-- Options cannot be read from a value of this kind. -/
  | optionsKind (kindName : String)
  deriving DecidableEq, Repr

namespace Misuse

def message : Misuse → String
  | invalid t => t
  | optionsKind k => "Invalid options type: <class '" ++ k ++ "'>"
  | wrongKind | noSuchAttribute | noSuchKey | outOfRange => ""

end Misuse

inductive SettingError where
  | option (cause : OptionError)
  | invalidName (key given : String)

namespace SettingError

def message : SettingError → String
  | option e => e.message
  | invalidName key given => "invalid " ++ key ++ " name " ++ Text.quoted given

end SettingError

inductive EntryError where
  | malformed (line : String)
  | invalidPattern (path : String)
  | malformedPath (path : String)
  | noDirective (path : String)
  | unknownDirective (token path : String)
  | invalidSetting (cause : SettingError) (path : String)
  | unmatched (path : String)

namespace EntryError

def message : EntryError → String
  | malformed line => "malformed control entry: " ++ Text.quoted line
  | invalidPattern path => "invalid pattern " ++ path ++ ": "
  | malformedPath path => "malformed property path: " ++ Text.quoted path
  | noDirective path => "no directive for path " ++ path
  | unknownDirective token path =>
    "unknown directive " ++ Text.quoted token ++ " for path " ++ path
  | invalidSetting e path => e.message ++ " for path " ++ path
  | unmatched path => "path " ++ path ++ " matches no property"

end EntryError

inductive AnnotationError where
  | notMapping
  | unknownKey (key : String)
  | wrongKind (key expected : String)
  | invalidSetting (cause : SettingError)

namespace AnnotationError

def message (place : String) : AnnotationError → String
  | notMapping => "Malformed customization on " ++ place ++ ": expected a mapping"
  | unknownKey key => "Unknown customization '" ++ key ++ "' on " ++ place
  | wrongKind key expected =>
    "Customization '" ++ key ++ "' on " ++ place ++ " must be " ++ expected
  | invalidSetting e => "Customization on " ++ place ++ ": " ++ e.message

end AnnotationError

/-- Why options, control files or annotations cannot be used. -/
inductive ConfigError where
  /-- A single option has no meaning. -/
  | option (cause : OptionError)
  /-- A set of options was checked and these were rejected. -/
  | options (causes : List OptionError)
  | unknownToken (token : String)
  | valueNotTaken (option : String)
  | valueRequired (option : String)
  | fileNotFound (path : String)
  | fileNotJson (path : String)
  | fileInvalid (path : String)
  | fileUnreadable (path : String) (cause : FileError)
  | fileNotObject (path : String)
  | controlUnreadable (path : String) (cause : FileError)
  | entry (source : String) (line : Nat) (cause : EntryError)
  | annotated (place : String) (cause : AnnotationError)

/-- What marks a command line token as one of ours. -/
def tokenMark : String := "-Xxew"

namespace ConfigError

def message : ConfigError → String
  | option e => e.message
  | options es => "; ".intercalate (es.map OptionError.message)
  | unknownToken t => "Unknown option: " ++ t
  | valueNotTaken o => "Option " ++ tokenMark ++ ":" ++ o ++ " takes no value"
  | valueRequired o => "Option " ++ tokenMark ++ ":" ++ o ++ " requires a value"
  | fileNotFound p => "Configuration file not found: " ++ p
  | fileNotJson p => "Configuration file must be JSON: " ++ p
  | fileInvalid p => "Invalid JSON in configuration file " ++ p ++ ": "
  | fileUnreadable p e => "Failed to load configuration file " ++ p ++ ": " ++ e.message
  | fileNotObject p => "Configuration file must contain a JSON object: " ++ p
  | controlUnreadable p e => "Cannot read control file " ++ p ++ ": " ++ e.message
  | entry source line e => source ++ ":" ++ toString line ++ ": " ++ e.message
  | annotated place e => e.message place

end ConfigError

inductive OwnershipError where
  | notOwned (property className : String)
  | nowhereToMoveFrom (property : String)
  | nowhereToDeleteFrom (property : String)
  deriving DecidableEq, Repr

namespace OwnershipError

def message : OwnershipError → String
  | notOwned p c => "Property '" ++ p ++ "' is not owned by " ++ c
  | nowhereToMoveFrom p => "Property '" ++ p ++ "' has no owner to move from"
  | nowhereToDeleteFrom p => "Property '" ++ p ++ "' has no owner to delete from"

end OwnershipError

/-- A record was advanced from a state that it is not in. -/
structure StateError where
  path : String
  expected : String
  found : String
  deriving DecidableEq, Repr

namespace StateError

def message (e : StateError) : String :=
  e.path ++ ": expected state " ++ e.expected ++ ", found " ++ e.found

end StateError

inductive DescriptionError where
  | noClassList
  | classWithoutName
  | propertyWithoutName (owner : String)
  | unknownKind (given : Value) (owner name : String)
  | unknownBase (given : Value) (className : String)
  /-- There is a graph, but with names or types that are no texts. -/
  | unlettered
  | misuse (cause : Misuse)

namespace DescriptionError

def message : DescriptionError → String
  | noClassList => "Model description must be an object with a 'classes' list"
  | classWithoutName => "Class without name in model description"
  | propertyWithoutName owner => "Property without name in class " ++ owner
  | unknownKind given owner name =>
    "Unknown content kind " ++ given.shown ++ " for " ++ owner ++ "." ++ name
  | unknownBase given cls => "Unknown base class " ++ given.shown ++ " for " ++ cls
  | unlettered => "Names and types in a model must be texts"
  | misuse m => m.message

end DescriptionError

inductive BindingError where
  | invalidXml
  | unknownRootClass (name : String)
  | unboundRoot (tag : String)
  | unexpectedElement (tag className : String)
  | noField (className : String) (field : Option String)
  | noContainer (className field : String)
  | misuse (cause : Misuse)
  deriving DecidableEq, Repr

namespace BindingError

def message : BindingError → String
  | invalidXml => "Invalid XML: "
  | unknownRootClass name => "Unknown root class " ++ name
  | unboundRoot tag => "No class is bound to root element <" ++ tag ++ ">"
  | unexpectedElement tag cls => "Unexpected element <" ++ tag ++ "> in " ++ cls
  | noField cls field =>
    cls ++ " has no field " ++ (match field with | some f => Text.quoted f | none => "None")
  | noContainer cls field => cls ++ "." ++ field ++ " has no container; call set_items() first"
  | misuse m => m.message

end BindingError

/-- Everything that can stop a pass. -/
inductive Failure where
  | configuration (cause : ConfigError)
  | name (cause : Naming.NameError)
  | ownership (cause : OwnershipError)
  | state (cause : StateError)
  | file (cause : FileError)
  | misuse (cause : Misuse)

end Enfold
