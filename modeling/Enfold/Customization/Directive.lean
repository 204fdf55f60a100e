import Enfold.Customization.Annotated
import Enfold.Customization.Control
import Enfold.Options.Basic

/-! # Directives

A directive says whether and how a property is wrapped. Each part of it is decided by the highest
layer that has a say: the control file, the annotation of the property, that of its class, the
options, and last the built-in defaults.
-/

namespace Enfold

/-- The layers of customization, highest first. -/
inductive Layer where
  | control
  | onProperty
  | onClass
  | options
  | default
  deriving DecidableEq, Repr

def Layer.name : Layer → String
  | control => "control"
  | onProperty => "annotation"
  | onClass => "class annotation"
  | options => "options"
  | default => "default"

structure Directive where
  wrap : Bool := true
  collection : Collection := ⟨.ordered, "list"⟩
  interface : Value := .text "list"
  instantiation : Instantiation := .eager
  className : Option String := none
  fieldName : Option String := none
  nested : Value := .bool false
  plural : Value := .bool false
  /-- The layer that decided `wrap`. -/
  source : String := Layer.default.name
  deriving Repr, Inhabited

/-- The sources of customization that hold for a whole run. -/
structure Customization where
  options : Options
  control : Option ControlFile
  deriving Inhabited

namespace Customization

variable (z : Customization) (m : Model)

def classSettings (c : ClassId) : Except ConfigError Settings :=
  Annotated.settings (m.qualifiedName c) (m.decl c).customization

def propertySettings (p : PropertyId) : Except ConfigError Settings :=
  Annotated.settings (m.path p) (m.prop p).customization

/-- Checks the control file against the model, then every annotation in the model. -/
def validate : Except ConfigError Unit := do
  if let some f := z.control then f.checkReferences m
  for c in m.walk do
    discard (classSettings m c)
    for p in (m.decl c).properties do
      discard (propertySettings m p)

def layers (p : PropertyId) : Except ConfigError (List (Layer × Settings)) := do
  let control := match z.control with
    | some f => f.settingsFor m p
    | none => {}
  let ofClass ← match (m.prop p).owner with
    | some c => classSettings m c
    | none => pure {}
  let ofProperty ← propertySettings m p
  return [(.control, control), (.onProperty, ofProperty), (.onClass, ofClass)]

/-- An option that says nothing leaves the choice to the default. -/
def optionOr (option default : Value) : Value := if option.isNull then default else option

/-- The directive that settled layers give, with the options below them. -/
def directive (layers : List (Layer × Settings)) : Except OptionError Directive := do
  let merged := layers.foldr (fun l acc => l.2.orElse acc) {}
  let o := z.options
  let collection ← Collection.resolve
    ((merged.collection.map Value.text).getD (optionOr o.collection (.text "list")))
  let instantiation ← Instantiation.resolve
    ((merged.instantiate.map Value.text).getD (optionOr o.instantiate (.text "eager")))
  let source := (layers.find? fun l => l.2.wrap.isSome).map Prod.fst
  return {
    wrap := merged.wrap.getD true
    collection, instantiation
    interface := if o.collectionInterface.isTruthy then o.collectionInterface
      else .text collection.typeName
    className := merged.className
    fieldName := merged.fieldName
    nested := (merged.nested.map Value.bool).getD (optionOr o.nested (.bool false))
    plural := (merged.plural.map Value.bool).getD (optionOr o.plural (.bool false))
    source := (source.getD .default).name }

def resolve (p : PropertyId) : Except ConfigError Directive := do
  (z.directive (← z.layers m p)).mapError .option

end Customization
end Enfold
