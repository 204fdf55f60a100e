import Enfold.Proofs.Customization.Validated
import Enfold.Proofs.Model.Held

/-! # Directives that hold items differently

The options for the collection, its interface and its making decide those three parts of a
directive and nothing else: neither whether there is a directive, nor any other part of it.
-/

namespace Enfold

/-- Options but for those that say how items are held. -/
def Options.unheld (o : Options) : Options :=
  { o with collection := .null, collectionInterface := .null, instantiate := .null }

def Directive.unheld (d : Directive) : Directive :=
  { d with collection := ⟨.ordered, "list"⟩, interface := .null, instantiation := .eager }

namespace Customization

variable {o o' : Options} {control : Option ControlFile} {m m' : Model} {p : PropertyId}

section Alike

variable (h : m.SameButHeld m')
include h

theorem classSettings_alike (c : ClassId) : classSettings m' c = classSettings m c := by
  simp only [classSettings, h.qualifiedName, h.decl]

theorem propertySettings_alike (p : PropertyId) : propertySettings m' p = propertySettings m p := by
  simp only [propertySettings, h.path, h.congr p Property.customization fun _ => rfl]

theorem holdsFor_alike (e : ControlEntry) : e.holdsFor m' = e.holdsFor m := by
  have hlocal (c) : m'.localName c = m.localName c :=
    Model.localName_congr_of (P := fun _ => True) (fun _ => by rw [h.decl])
      (fun _ => by rw [h.decl]) (fun _ _ => trivial) trivial
  funext p
  simp only [ControlEntry.holdsFor, Model.candidatePaths, h.congr p Property.owner fun _ => rfl,
    h.congr p Property.name fun _ => rfl, h.path, hlocal]

theorem layers_alike (p : PropertyId) :
    (⟨o', control⟩ : Customization).layers m' p = (⟨o, control⟩ : Customization).layers m p := by
  simp only [layers, ControlFile.settingsFor, holdsFor_alike h, propertySettings_alike h,
    h.congr p Property.owner fun _ => rfl]
  cases (m.prop p).owner with
  | none => rfl
  | some c => simp only [classSettings_alike h]

theorem validate_alike :
    (⟨o', control⟩ : Customization).validate m' = (⟨o, control⟩ : Customization).validate m := by
  have hreferences (f : ControlFile) : f.checkReferences m' = f.checkReferences m := by
    simp only [ControlFile.checkReferences, ControlEntry.isMatched, Model.walkProperties, h.walk,
      h.decl, holdsFor_alike h]
  simp only [validate, hreferences, h.walk, h.decl, classSettings_alike h,
    propertySettings_alike h]

end Alike

theorem choice_alike {α : Type} {f : Value → Except OptionError α} {v v' : Value}
    (given : Option String) (hv : ∃ a, f v = .ok a) (hv' : ∃ a, f v' = .ok a) :
    Agree (fun _ _ => True) (f ((given.map Value.text).getD v))
      (f ((given.map Value.text).getD v')) := by
  cases given with
  | none =>
    obtain ⟨a, ha⟩ := hv
    obtain ⟨a', ha'⟩ := hv'
    rw [Option.map_none, Option.getD_none, Option.getD_none, ha, ha']
    exact .ok trivial
  | some s =>
    rw [Option.map_some, Option.getD_some, Option.getD_some]
    cases f (.text s) with
    | error e => exact .error e
    | ok a => exact .ok trivial

/-- Options that differ in nothing else give directives that differ in nothing else. -/
theorem directive_alike (ho : o.Resolves) (ho' : o'.Resolves) (h : o'.unheld = o.unheld)
    (ls : List (Layer × Settings)) : Agree (fun d d' => d'.unheld = d.unheld)
      ((⟨o, control⟩ : Customization).directive ls)
      ((⟨o', control⟩ : Customization).directive ls) := by
  have hnested : o'.nested = o.nested := (congrArg Options.nested h :)
  have hplural : o'.plural = o.plural := (congrArg Options.plural h :)
  unfold directive
  refine (choice_alike _ ho.collection ho'.collection).bind fun c c' _ => ?_
  refine (choice_alike _ ho.instantiation ho'.instantiation).bind fun i i' _ => ?_
  refine .ok ?_
  simp only [Directive.unheld, hnested, hplural]

theorem resolve_alike (ho : o.Resolves) (ho' : o'.Resolves) (h : o'.unheld = o.unheld)
    (hm : m.SameButHeld m') (p : PropertyId) : Agree (fun d d' => d'.unheld = d.unheld)
      ((⟨o, control⟩ : Customization).resolve m p)
      ((⟨o', control⟩ : Customization).resolve m' p) := by
  unfold resolve
  rw [layers_alike hm (o := o)]
  cases (⟨o, control⟩ : Customization).layers m p with
  | error e => exact .error e
  | ok ls => exact (directive_alike ho ho' h ls).mapError _

end Customization
end Enfold
