import Enfold.Failure

/-! # Settings

A customization consists of settings, each of which may be left open. Control files and annotations
give them under the same keys; a setting that is given again takes the later value.
-/

namespace Enfold

inductive Setting where
  | wrap (on : Bool)
  | nested (on : Bool)
  | plural (on : Bool)
  | collection (name : String)
  | instantiate (mode : String)
  | className (name : String)
  | fieldName (name : String)
  deriving DecidableEq, Repr

structure Settings where
  wrap : Option Bool := none
  collection : Option String := none
  instantiate : Option String := none
  className : Option String := none
  fieldName : Option String := none
  nested : Option Bool := none
  plural : Option Bool := none
  deriving DecidableEq, Repr, Inhabited

/-- A name that may be given, which a line feed may follow. -/
def isGivenName (s : String) : Bool :=
  let name := s.toList
  Text.isIdentifier (if name.getLast? = some '\n' then name.dropLast else name)

namespace Setting

def checkName (key name : String) : Except SettingError Unit :=
  if isGivenName name then .ok () else .error (.invalidName key name)

/-- Refuses collections and modes that do not exist and names that are no identifiers. -/
def check : Setting → Except SettingError Unit
  | collection name => ((Collection.resolve name).mapError .option).map fun _ => ()
  | instantiate mode => ((Instantiation.resolve mode).mapError .option).map fun _ => ()
  | className name => checkName "class" name
  | fieldName name => checkName "field" name
  | wrap _ | nested _ | plural _ => .ok ()

def checked (s : Setting) : Except SettingError Setting := s.check.map fun _ => s

end Setting

namespace Settings

def set (s : Settings) : Setting → Settings
  | .wrap on => { s with wrap := some on }
  | .nested on => { s with nested := some on }
  | .plural on => { s with plural := some on }
  | .collection name => { s with collection := some name }
  | .instantiate mode => { s with instantiate := some mode }
  | .className name => { s with className := some name }
  | .fieldName name => { s with fieldName := some name }

def ofList (settings : List Setting) : Settings := settings.foldl set {}

def orElse (upper lower : Settings) : Settings where
  wrap := upper.wrap <|> lower.wrap
  collection := upper.collection <|> lower.collection
  instantiate := upper.instantiate <|> lower.instantiate
  className := upper.className <|> lower.className
  fieldName := upper.fieldName <|> lower.fieldName
  nested := upper.nested <|> lower.nested
  plural := upper.plural <|> lower.plural

end Settings
end Enfold
