import Enfold.Proofs.Customization.Given
import Enfold.Proofs.Model.Walk
import Enfold.Proofs.Options.Spelling

/-! # Customizations that were validated

Validation looks at every annotation of a model, and the check of options at the collection and the
mode that they ask for. Together they cover all that a directive is made of, so none of them is
missing once both have passed.
-/

namespace Enfold

/-! ### Checked options -/

namespace Options

variable {o : Options} {files : FileTree}

/-- The options give a collection and a mode where no layer above them does. -/
structure Resolves (o : Options) : Prop where
  collection : ∃ c, Collection.resolve
    (Customization.optionOr o.collection (.text "list")) = .ok c
  instantiation : ∃ i, Instantiation.resolve
    (Customization.optionOr o.instantiate (.text "eager")) = .ok i

theorem rejection_eq_nil {α : Type} {x : Except OptionError α} (h : rejection x = []) :
    ∃ a, x = .ok a := by
  cases x with
  | ok a => exact ⟨a, rfl⟩
  | error e => cases h

theorem resolved_of_rejections (h : o.rejections files = .ok []) :
    (∃ c, o.resolvedCollection = .ok c) ∧
    (o.collectionInterface.isNull = false →
      ∃ name, validateInterface o.collectionInterface = .ok name) ∧
    ∃ i, o.resolvedInstantiation = .ok i := by
  obtain ⟨control, -, h⟩ := exceptBind_eq_ok.mp h
  have h := Except.ok.inj h
  simp only [List.append_eq_nil_iff] at h
  obtain ⟨⟨⟨⟨⟨⟨hc, hn⟩, hi⟩, -⟩, -⟩, -⟩, -⟩ := h
  refine ⟨rejection_eq_nil hc, ?_, rejection_eq_nil hi⟩
  intro hnull
  rw [hnull] at hn
  exact rejection_eq_nil hn

theorem resolves_of_rejections (h : o.rejections files = .ok []) : o.Resolves := by
  obtain ⟨hc, -, hi⟩ := resolved_of_rejections h
  -- An option that says nothing leaves a default that resolves.
  constructor
  · unfold Customization.optionOr
    split
    · exact ⟨⟨.ordered, "list"⟩, rfl⟩
    · exact hc
  · unfold Customization.optionOr
    split
    · exact ⟨.eager, rfl⟩
    · exact hi

theorem resolves_of_load {custom configFile args : Value}
    (h : load files custom configFile args = .ok o) : o.Resolves :=
  resolves_of_rejections (rejections_of_load h)

end Options

/-! ### Validation -/

/-- Where an annotation stands makes a difference to its errors alone. -/
theorem Annotated.settings_eq_ok_of_place {place place' : String} {given : Value} {s : Settings}
    (h : settings place given = .ok s) : settings place' given = .ok s := by
  cases given with
  | null => exact h
  | object members => exact mapError_eq_ok.mpr (mapError_eq_ok.mp h)
  | bool | int | decimal | text | list => cases h

namespace Customization

variable {z : Customization} {m m' : Model} {p : PropertyId} {c : ClassId} {d : Directive}
  {s : Settings}

theorem validate_eq_ok : z.validate m = .ok () ↔
    (∀ f, z.control = some f → f.checkReferences m = .ok ()) ∧
      ∀ c ∈ m.walk, (∃ s, classSettings m c = .ok s) ∧
        ∀ p ∈ (m.decl c).properties, ∃ s, propertySettings m p = .ok s := by
  have properties (c : ClassId) (u : Unit) : (forIn (m.decl c).properties () fun p _ => do
      discard (propertySettings m p)
      pure (.yield ())) = Except.ok u ↔
        ∀ p ∈ (m.decl c).properties, ∃ s, propertySettings m p = .ok s :=
    forIn_eq_ok fun p x => by
      simp only [exceptBind_eq_ok, discard_eq_ok, exceptPure_eq_ok, exists_and_right, exists_const]
  have classes (u : Unit) : (forIn m.walk () fun c _ => do
      discard (classSettings m c)
      forIn (m.decl c).properties () fun p _ => do
        discard (propertySettings m p)
        pure (.yield ())
      pure (.yield ())) = Except.ok u ↔ ∀ c ∈ m.walk, (∃ s, classSettings m c = .ok s) ∧
        ∀ p ∈ (m.decl c).properties, ∃ s, propertySettings m p = .ok s :=
    forIn_eq_ok fun c x => by
      simp only [exceptBind_eq_ok, discard_eq_ok, properties, exceptPure_eq_ok, exists_and_left,
        exists_const, and_assoc]
  unfold validate
  cases hf : z.control with
  | none =>
    simp only [exceptBind_eq_ok, classes]
    simp [exceptPure_eq_ok]
  | some f =>
    simp only [exceptBind_eq_ok, classes, exceptPure_eq_ok]
    constructor
    · rintro ⟨⟨⟩, hcontrol, ⟨⟩, hclasses, -⟩
      exact ⟨by rintro _ ⟨⟩; exact hcontrol, hclasses⟩
    · rintro ⟨hcontrol, hclasses⟩
      exact ⟨(), hcontrol f rfl, (), hclasses, trivial⟩

theorem directive_ok {ls : List (Layer × Settings)} (ho : z.options.Resolves)
    (h : ∀ l ∈ ls, l.2.Sound) : ∃ d, z.directive ls = .ok d := by
  have hm := sound_merged h
  -- What settings that passed their check leave open is left to the options.
  have resolved {α : Type} {f : Value → Except OptionError α} {given : Option String} {v : Value}
      (hg : ∀ x, given = some x → ∃ a, f (.text x) = .ok a) (hv : ∃ a, f v = .ok a) :
      ∃ a, f ((given.map Value.text).getD v) = .ok a := by
    cases given with
    | some x => exact hg x rfl
    | none => exact hv
  obtain ⟨c, hc⟩ := resolved hm.collection ho.collection
  obtain ⟨i, hi⟩ := resolved hm.instantiate ho.instantiation
  exact ⟨_, exceptBind_eq_ok.mpr ⟨c, hc, exceptBind_eq_ok.mpr ⟨i, hi, rfl⟩⟩⟩

/-- In a validated model every property of a class has a directive. -/
theorem resolve_ok (hm : m.Linked) (hz : z.Sound) (ho : z.options.Resolves)
    (hv : z.validate m = .ok ()) (hp : p ∈ (m.decl c).properties) : ∃ d, z.resolve m p = .ok d := by
  have hc := (Model.mem_walk hm).mpr (Model.class_lt_of_mem hp)
  obtain ⟨⟨ofClass, hclass⟩, hproperties⟩ := (validate_eq_ok.mp hv).2 c hc
  obtain ⟨ofProperty, hproperty⟩ := hproperties p hp
  have howner := hm.mem_iff_owner.mp hp
  have howned : ownerSettings m p = .ok ofClass := by
    rw [ownerSettings, howner]
    exact hclass
  have hl := layers_eq_ok (z := z).mpr ⟨ofClass, ofProperty, howned, hproperty, rfl⟩
  obtain ⟨d, hd⟩ := directive_ok ho (sound_layers hz hl)
  exact ⟨d, exceptBind_eq_ok.mpr ⟨_, hl, mapError_eq_ok.mpr hd⟩⟩

/-! ### The same annotations -/

theorem classSettings_of_null (hc : (m.decl c).customization = .null) :
    classSettings m c = .ok {} := by
  rw [classSettings, hc]
  rfl

theorem propertySettings_of_null (hp : (m.prop p).customization = .null) :
    propertySettings m p = .ok {} := by
  rw [propertySettings, hp]
  rfl

theorem classSettings_of_eq (hc : (m'.decl c).customization = (m.decl c).customization)
    (h : classSettings m c = .ok s) : classSettings m' c = .ok s := by
  unfold classSettings
  rw [hc]
  exact Annotated.settings_eq_ok_of_place h

theorem propertySettings_of_eq (hp : (m'.prop p).customization = (m.prop p).customization)
    (h : propertySettings m p = .ok s) : propertySettings m' p = .ok s := by
  unfold propertySettings
  rw [hp]
  exact Annotated.settings_eq_ok_of_place h

theorem resolve_of_eq (hz : z.control = none) (ho : (m.prop p).owner = some c)
    (ho' : (m'.prop p).owner = some c)
    (hc : (m'.decl c).customization = (m.decl c).customization)
    (hp : (m'.prop p).customization = (m.prop p).customization) (h : z.resolve m p = .ok d) :
    z.resolve m' p = .ok d := by
  obtain ⟨ls, hl, h⟩ := exceptBind_eq_ok.mp h
  refine exceptBind_eq_ok.mpr ⟨ls, ?_, mapError_eq_ok.mpr (mapError_eq_ok.mp h)⟩
  obtain ⟨ofClass, ofProperty, hclass, hproperty, rfl⟩ := layers_eq_ok.mp hl
  refine layers_eq_ok.mpr ⟨ofClass, ofProperty, ?_, propertySettings_of_eq hp hproperty, ?_⟩
  · rw [ownerSettings, ho] at hclass
    rw [ownerSettings, ho']
    exact classSettings_of_eq hc hclass
  · simp [controlSettings, hz]

end Customization
end Enfold
