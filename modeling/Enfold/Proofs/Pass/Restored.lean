import Enfold.Proofs.Binding.Restored
import Enfold.Proofs.Pass.Remains

/-! # Elements that stand for one another

A property can take any element of a group, each of a type of its own. An element whose type is a
class keeps its tag in the object that is read of it. Of one whose type is no class nothing is read
but the text, which is written under the name of the property.
-/

namespace Enfold

open PassM Binding

variable {n : Naming} {m m' : Model} {s t : PassState} {w : ClassId} {q : PropertyId}
  {r : Record} {e : Xml.Element}

theorem Model.Described.wrapsItems (hm : m.Described) : m.WrapsItems where
  wrapper w _ hw := by simp [hm.isWrapper w] at hw
  reference q _ w hw := by simp [(hm.prop q).reference] at hw

theorem Record.Settles.holdsItems (h : r.Settles n m m' w q)
    (hd : (m.prop r.candidate.prop).Described)
    (ha : (m.prop r.candidate.prop).isAttribute = false) :
    HoldsItems m' w r.candidate.prop where
  isAttribute := by rw [h.moved]; exact ha
  reference := by rw [h.moved]; exact hd.reference
  synthetic := by rw [h.moved]; exact hd.synthetic
  multiplicity := by rw [h.moved]; rfl
  alone hk := h.alone (by rwa [h.moved] at hk)
  mixed hk := by
    obtain ⟨x, hw, hx⟩ := h.mixed (by rwa [h.moved] at hk)
    exact ⟨x, hw, by rw [hx]; constructor <;> rfl⟩

/-- A model that is described by a value, or comes of a run. -/
inductive Model.Arises (described : Value) : Model → Prop
  | described {m : Model} (h : Model.ofValue described = .ok m) : Arises described m
  | wrapped {pass : Pass} {s t : PassState} {result : PassResult}
      (hm : Model.ofValue described = .ok s.model) (h : pass.run.run s = .ok result t) :
      Arises described t.model

namespace Pass

variable {pass : Pass} {result : PassResult}

/-- All wrappers hold items after a run. -/
theorem wrapsItems_of_run (hm : s.model.Described) (h : pass.run.run s = .ok result t) :
    t.model.WrapsItems := by
  have hs := reshaped_of_described hm h
  have hperm := hs.perm_walk hm.toLinked
  have hsettles {w : ClassId} (hw : w ∈ wrappersOf result.records) :
      (t.model.decl w).isWrapper = true ∧ ∃ p, HoldsItems t.model w p := by
    obtain ⟨r, hr, -, q, hset⟩ := hs.settles_of_mem hw
    exact ⟨hset.isWrapper, _, hset.holdsItems (hm.prop _) (isAttribute_of_run hm h hr)⟩
  constructor
  · intro w hw hwrapper
    rcases List.mem_append.mp (hperm.mem_iff.mp hw) with hold | hnew
    · have := (isWrapper_eq_false_iff_of_run hm h hw).mpr hold
      simp [this] at hwrapper
    · exact (hsettles hnew).2
  · intro q _ w hq
    obtain ⟨r, hr, hd, hrw, -⟩ := hs.referred q w hq
    have hnew : w ∈ wrappersOf result.records := mem_wrappersOf.mpr ⟨r, hr, hd, hrw⟩
    exact ⟨hperm.mem_iff.mpr (List.mem_append_right _ hnew), (hsettles hnew).1⟩

end Pass

theorem Model.Arises.wrapsItems {described : Value} (h : m.Arises described) : m.WrapsItems := by
  cases h with
  | described h => exact (Model.described_ofValue h).wrapsItems
  | wrapped hm h => exact Pass.wrapsItems_of_run (Model.described_ofValue hm) h

/-- Children that stand for a property by its group keep their tags exactly if their types are
classes. -/
theorem reference_tags_restored {described : Value} {asked : Option String} {d : Datum}
    (hm : m.Arises described) (hf : m.SharesNoField) (h : unmarshalElement m asked e = .ok d) :
    ∃ c y, rootClass m asked e.tag = .ok c ∧ marshalElement m d = .ok y ∧
      y.tag = boundElement m c ∧ Restored m c e y ∧
        ∀ x es ys, x.kind = .reference → RestoredBlock m x es ys →
          (ys.map Xml.Element.tag = es.map Xml.Element.tag ↔
            ∀ k ∈ es, k.tag = x.name ∨ (m.classOfType? (typeFor x k.tag)).isSome) := by
  obtain ⟨c, y, hc, hy, htag, hrestored⟩ := restored_of_unmarshalElement hm.wrapsItems hf h
  exact ⟨c, y, hc, hy, htag, hrestored, fun _ _ _ hx hblock => hblock.map_tag_eq_iff hx⟩

/-- Customers with any number of contacts, for which addresses of the type `type` can stand. -/
def customersWith (type : String) : Value :=
  .object [("package", .text "crm"), ("classes", .list [
    .object [("name", .text "Customer"), ("properties", .list [
      .object [("name", .text "contact"), ("kind", .text "reference"), ("repeated", .bool true),
        ("substitutes", .object [("address", .text type)])]])],
    .object [("name", .text "Address")]])]

def customer : Xml.Element where
  tag := "Customer"
  children := [{ tag := "contact", text := "by mail" }, { tag := "address", text := "High Street" },
    { tag := "contact", text := "at noon" }]

theorem reference_tags_of_customer : ∃ m result t d c y,
    Model.ofValue (customersWith "Address") = .ok m ∧
    (⟨{}, none, {}⟩ : Pass).run.run { model := m } = .ok result t ∧
      result.wrappers.map t.model.qualifiedName = ["crm.Contacts"] ∧ t.model.SharesNoField ∧
      unmarshalElement t.model none customer = .ok d ∧
        rootClass t.model none customer.tag = .ok c ∧ marshalElement t.model d = .ok y ∧
        Restored t.model c customer y ∧
        y.children.map Xml.Element.tag = ["contact", "address", "contact"] := by
  obtain ⟨m, result, t, hm, hr, hnamed, hapart, hread⟩ :=
    Pass.exists_run_of_ran? ⟨{}, none, {}⟩ (customersWith "Address") (fun _ result t =>
      result.wrappers.map t.model.qualifiedName = ["crm.Contacts"] ∧ t.model.SharesNoField ∧
      ((unmarshalElement t.model none customer).toOption.bind fun d =>
        (marshalElement t.model d).toOption.map fun y => y.children.map Xml.Element.tag) =
          some ["contact", "address", "contact"])
    (by decide +kernel)
  obtain ⟨d, hd, htags⟩ := Option.bind_eq_some_iff.mp hread
  have hd := toOption_eq_some.mp hd
  obtain ⟨c, y, hc, hy, -, hrestored, -⟩ :=
    reference_tags_restored (.wrapped hm hr) hapart hd
  rw [hy] at htags
  exact ⟨m, result, t, d, c, y, hm, hr, hnamed, hapart, hd, hc, hy, hrestored,
    Option.some.inj htags⟩

/-- An address whose type is no class comes back as a contact. -/
theorem simple_substitute_renamed : ¬ ∀ (described : Value) (pass : Pass) (s t : PassState)
    (result : PassResult) (e : Xml.Element) (d : Datum), Model.ofValue described = .ok s.model →
      pass.run.run s = .ok result t → t.model.SharesNoField →
      (∀ q ∈ (s.model.decl ⟨0⟩).properties, (s.model.prop q).kind = .reference) →
      rootClass t.model none e.tag = .ok ⟨0⟩ → unmarshalElement t.model none e = .ok d →
        ∃ y, marshalElement t.model d = .ok y ∧
          y.children.map Xml.Element.tag = e.children.map Xml.Element.tag := by
  intro claim
  obtain ⟨m, result, t, hm, hr, hapart, hkind, hroot, hread⟩ :=
    Pass.exists_run_of_ran? ⟨{}, none, {}⟩ (customersWith "str") (fun m _ t =>
      t.model.SharesNoField ∧
      (∀ q ∈ (m.decl ⟨0⟩).properties, (m.prop q).kind = .reference) ∧
      (rootClass t.model none customer.tag).toOption = some ⟨0⟩ ∧
      ((unmarshalElement t.model none customer).toOption.bind fun d =>
        (marshalElement t.model d).toOption.map fun y => y.children.map Xml.Element.tag) =
          some ["contact", "contact", "contact"])
    (by decide +kernel)
  obtain ⟨d, hd, htags⟩ := Option.bind_eq_some_iff.mp hread
  obtain ⟨y, hy, hsame⟩ := claim _ _ { model := m } t result customer d hm hr hapart hkind
    (toOption_eq_some.mp hroot) (toOption_eq_some.mp hd)
  rw [hy] at htags
  have htags : y.children.map Xml.Element.tag = ["contact", "contact", "contact"] :=
    Option.some.inj htags
  rw [hsame] at htags
  simp [customer] at htags

end Enfold
