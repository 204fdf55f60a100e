import Enfold.Proofs.Customization.Decided

/-! # Parts that are left to the options

Options are read in two places: by themselves, and as a layer below the control file and the
annotations. Where no layer above them gives a part of a directive, both read the same, but for a
mode that is left open.
-/

namespace Enfold

open Directive (Part)

namespace Customization

variable {z : Customization} {m : Model} {p : PropertyId} {part : Part} {o : Options}
  {files : FileTree} {custom configFile args : Value} {control : Option ControlFile}
  {ofClass ofProperty : Settings}

theorem eq_null_of_isNull {v : Value} (h : v.isNull = true) : v = .null := by
  cases v with
  | null => rfl
  | bool | int | decimal | text | list | object => cases h

/-- No layer above the options gives a part of the directive of a property. -/
def LeftToOptions (z : Customization) (m : Model) (p : PropertyId) (part : Part) : Prop :=
  ∀ l ∈ [Layer.control, .onProperty, .onClass], z.given? m p part l = none

instance : Decidable (z.LeftToOptions m p part) := inferInstanceAs (Decidable (∀ _ ∈ _, _ = none))

theorem snd_decided_of_leftToOptions (h : z.LeftToOptions m p part) :
    (z.decided m p part).2 = (z.options.given? part).getD part.builtIn := by
  have hcontrol := h .control (by simp)
  have hproperty := h .onProperty (by simp)
  have hclass := h .onClass (by simp)
  have hoptions : z.given? m p part .options = z.options.given? part := rfl
  simp only [decided, List.findSome?_cons, hcontrol, hproperty, hclass, hoptions, Option.map_none]
  cases z.options.given? part <;> rfl

theorem leftToOptions_of_null (hz : z.control = none) (hp : (m.prop p).customization.isNull = true)
    (hc : (m.prop p).owner.all (fun c => (m.decl c).customization.isNull) = true) (part : Part) :
    z.LeftToOptions m p part := by
  have hnone (v : Value) (hv : v.isNull = true) : Annotated.given? v part = none := by
    rw [eq_null_of_isNull hv]
    rfl
  intro l hl
  simp only [List.mem_cons, List.not_mem_nil, or_false] at hl
  rcases hl with rfl | rfl | rfl
  · simp [given?, hz]
  · exact hnone _ hp
  · cases ho : (m.prop p).owner with
    | none => simp [given?, ho]
    | some c =>
      rw [ho] at hc
      simp [given?, ho, hnone _ hc]

theorem given?_collection (h : o.rejections files = .ok []) :
    o.given? .collection = some o.collection := by
  obtain ⟨⟨c, hc⟩, -⟩ := Options.resolved_of_rejections h
  unfold Options.given?
  cases hv : o.collection with
  | null =>
    rw [Options.resolvedCollection, hv] at hc
    cases hc
  | bool | int | decimal | text | list | object => rfl

theorem effectiveInterface_eq {c : Collection} (h : o.rejections files = .ok [])
    (hc : o.resolvedCollection = .ok c) : o.effectiveInterface =
      .ok (if o.collectionInterface.isNull then .text c.typeName else o.collectionInterface) := by
  unfold Options.effectiveInterface
  rw [hc, Options.isTruthy_collectionInterface h]
  cases o.collectionInterface.isNull <;> rfl

theorem snd_decided_collection (h : z.options.rejections files = .ok [])
    (hc : z.LeftToOptions m p .collection) :
    (z.decided m p .collection).2 = z.options.collection := by
  rw [snd_decided_of_leftToOptions hc, given?_collection h, Option.getD_some]

theorem snd_decided_instantiate (hi : z.LeftToOptions m p .instantiate) :
    (z.decided m p .instantiate).2 = optionOr z.options.instantiate (.text "eager") := by
  rw [snd_decided_of_leftToOptions hi]
  change (if z.options.instantiate.isNull then none else some z.options.instantiate).getD _ = _
  unfold optionOr
  split <;> rfl

/-- A mode that is left open prints as the name of one. -/
theorem resolve_null : Instantiation.resolve .null = .ok .byCaller :=
  toOption_eq_some.mp (by decide +kernel)

/-- What no layer above gives is that of the options, but for a mode that they leave open, which is
eager. -/
theorem resolve_of_leftToOptions (h : Options.load files custom configFile args = .ok o)
    (hclass : ownerSettings m p = .ok ofClass) (hproperty : propertySettings m p = .ok ofProperty)
    (hc : LeftToOptions ⟨o, control⟩ m p .collection)
    (hi : LeftToOptions ⟨o, control⟩ m p .instantiate) :
    ∃ d, resolve ⟨o, control⟩ m p = .ok d ∧ o.resolvedCollection = .ok d.collection ∧
      o.effectiveInterface = .ok d.interface ∧
      (o.instantiate.isNull = false → o.resolvedInstantiation = .ok d.instantiation) ∧
      (o.instantiate.isNull = true →
        o.resolvedInstantiation = .ok .byCaller ∧ d.instantiation = .eager) := by
  have hr := Options.rejections_of_load h
  have hl := layers_eq_ok (z := ⟨o, control⟩).mpr ⟨ofClass, ofProperty, hclass, hproperty, rfl⟩
  have hdc := snd_decided_collection (z := ⟨o, control⟩) hr hc
  have hdi := snd_decided_instantiate hi
  obtain ⟨d, hd⟩ : ∃ d, directive ⟨o, control⟩ _ = .ok d := by
    obtain ⟨⟨collection, hcollection⟩, -⟩ := Options.resolved_of_rejections hr
    obtain ⟨mode, hmode⟩ := (Options.resolves_of_rejections hr).instantiation
    apply exists_directive hl
    · rw [hdc]
      exact hcollection
    · rw [hdi]
      exact hmode
  have hdecided := decided_of_directive hl hr hd
  have hcollection := hdecided.collection
  have hmode := hdecided.instantiation
  rw [hdc] at hcollection
  rw [hdi] at hmode
  refine ⟨d, exceptBind_eq_ok.mpr ⟨_, hl, mapError_eq_ok.mpr hd⟩, hcollection, ?_, ?_, ?_⟩
  · rw [effectiveInterface_eq hr hcollection, hdecided.interface]
  · intro hn
    have hgiven : optionOr o.instantiate (.text "eager") = o.instantiate := by simp [optionOr, hn]
    rw [hgiven] at hmode
    exact hmode
  · intro hn
    have hopen : optionOr o.instantiate (.text "eager") = .text "eager" := by simp [optionOr, hn]
    rw [hopen] at hmode
    constructor
    · rw [Options.resolvedInstantiation, eq_null_of_isNull hn, resolve_null]
    · exact (Except.ok.inj hmode).symm

def annotatedOrders : Value :=
  .object [("package", .text "shop"), ("classes", .list [
    .object [("name", .text "Order"), ("customization", .object [("plural", .bool true)]),
      ("properties", .list [.object [("name", .text "item"), ("repeated", .bool true)]])]])]

/-- Options that ask for a sorted collection and leave the mode open. -/
def sortedEntries : Value :=
  .object [("collection", .text " java.util.TreeSet "), ("collectionInterface", .text "Sequence"),
    ("instantiate", .null)]

theorem resolve_of_sortedEntries : ∃ o f m ofClass ofProperty d,
    Options.load [] sortedEntries .null .null = .ok o ∧
    ControlFile.parse "Order.item = nested" "control" = .ok f ∧
    Model.ofValue annotatedOrders = .ok m ∧
    ownerSettings m ⟨0⟩ = .ok ofClass ∧ propertySettings m ⟨0⟩ = .ok ofProperty ∧
    LeftToOptions ⟨o, some f⟩ m ⟨0⟩ .collection ∧ LeftToOptions ⟨o, some f⟩ m ⟨0⟩ .instantiate ∧
    resolve ⟨o, some f⟩ m ⟨0⟩ = .ok d ∧ o.resolvedCollection = .ok d.collection ∧
    d.collection = ⟨.sorted, "SortedSet"⟩ ∧ o.effectiveInterface = .ok d.interface ∧
    o.resolvedInstantiation = .ok .byCaller ∧ d.instantiation = .eager := by
  have h : ((Options.load [] sortedEntries .null .null).toOption.any fun o =>
      (ControlFile.parse "Order.item = nested" "control").toOption.any fun f =>
        (Model.ofValue annotatedOrders).toOption.any fun m =>
          (ownerSettings m ⟨0⟩).toOption.any fun _ => (propertySettings m ⟨0⟩).toOption.any fun _ =>
            LeftToOptions ⟨o, some f⟩ m ⟨0⟩ .collection ∧
            LeftToOptions ⟨o, some f⟩ m ⟨0⟩ .instantiate ∧ o.instantiate.isNull ∧
            o.resolvedCollection.toOption = some ⟨.sorted, "SortedSet"⟩) = true := by decide +kernel
  obtain ⟨o, ho, h⟩ := (Option.any_eq_true _ _).mp h
  obtain ⟨f, hf, h⟩ := (Option.any_eq_true _ _).mp h
  obtain ⟨m, hm, h⟩ := (Option.any_eq_true _ _).mp h
  obtain ⟨ofClass, hclass, h⟩ := (Option.any_eq_true _ _).mp h
  obtain ⟨ofProperty, hproperty, h⟩ := (Option.any_eq_true _ _).mp h
  obtain ⟨hc, hi, hnull, hsorted⟩ := of_decide_eq_true h
  have ho := toOption_eq_some.mp ho
  have hclass := toOption_eq_some.mp hclass
  have hproperty := toOption_eq_some.mp hproperty
  obtain ⟨d, hd, hcollection, hinterface, -, hmode⟩ :=
    resolve_of_leftToOptions ho hclass hproperty hc hi
  have hkind : d.collection = ⟨.sorted, "SortedSet"⟩ :=
    Except.ok.inj (hcollection.symm.trans (toOption_eq_some.mp hsorted))
  exact ⟨o, f, m, ofClass, ofProperty, d, ho, toOption_eq_some.mp hf, toOption_eq_some.mp hm,
    hclass, hproperty, hc, hi, hd, hcollection, hkind, hinterface, hmode hnull⟩

def bareOrders : Value :=
  .object [("package", .text "shop"), ("classes", .list [
    .object [("name", .text "Order"),
      ("properties", .list [.object [("name", .text "item"), ("repeated", .bool true)]])]])]

/-- A directive that is left to the options need not have their mode. -/
theorem mode_overlooked : ¬ ∀ (files : FileTree) (custom configFile args v : Value) (o : Options)
    (m : Model) (p : PropertyId) (d : Directive),
      Options.load files custom configFile args = .ok o → Model.ofValue v = .ok m →
      (∀ part, LeftToOptions ⟨o, none⟩ m p part) →
      resolve ⟨o, none⟩ m p = .ok d → o.resolvedInstantiation = .ok d.instantiation := by
  intro claim
  have h : ((Options.load [] sortedEntries .null .null).toOption.any fun o =>
      (Model.ofValue bareOrders).toOption.any fun m =>
        (resolve ⟨o, none⟩ m ⟨0⟩).toOption.any fun d =>
          (m.prop ⟨0⟩).customization.isNull ∧
          (m.prop ⟨0⟩).owner.all (fun c => (m.decl c).customization.isNull) ∧
          o.resolvedInstantiation.toOption ≠ some d.instantiation) = true := by decide +kernel
  obtain ⟨o, ho, h⟩ := (Option.any_eq_true _ _).mp h
  obtain ⟨m, hm, h⟩ := (Option.any_eq_true _ _).mp h
  obtain ⟨d, hd, h⟩ := (Option.any_eq_true _ _).mp h
  obtain ⟨hp, hc, hne⟩ := of_decide_eq_true h
  have hleft : ∀ part, LeftToOptions ⟨o, none⟩ m ⟨0⟩ part := leftToOptions_of_null rfl hp hc
  apply hne
  rw [claim [] sortedEntries .null .null bareOrders o m ⟨0⟩ d (toOption_eq_some.mp ho)
    (toOption_eq_some.mp hm) hleft (toOption_eq_some.mp hd)]
  rfl

end Customization
end Enfold
