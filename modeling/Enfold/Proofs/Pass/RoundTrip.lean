import Enfold.Proofs.Binding.Conforming
import Enfold.Proofs.Pass.Transparent

/-! # Documents come back from a wrapped model

A document that follows the declarations of a model is read through what a run has made of the
model, and is written into the same tree. An object keeps its text and the name of its element
among its values, so this is true only where no field is called like these two, and where no two
properties of a class share a field.
-/

namespace Enfold

open PassM Binding

variable {n : Naming} {m m' : Model} {s t : PassState} {c : ClassId} {p q : PropertyId}
  {rs : List Record}

/-- A run drops nothing that is declared, and no type means a wrapper. -/
structure Retained (m m' : Model) (rs : List Record) : Prop where
  kind : ∀ q ∈ m.walkProperties,
    (m.prop q).isAttribute = true ∨ (m.prop q).kind = .element ∨ (m.prop q).kind = .any
  kept : ∀ r ∈ rs, r.deleted = false
  types : ∀ q ∈ m.walkProperties, ∀ name ∈ (m.prop q).typeNames, ∀ c ∈ m'.classOfType? name,
    (m'.decl c).isWrapper = false

instance (m m' : Model) (rs : List Record) : Decidable (Retained m m' rs) :=
  decidable_of_iff ((∀ q ∈ m.walkProperties, (m.prop q).isAttribute = true ∨
      (m.prop q).kind = .element ∨ (m.prop q).kind = .any) ∧ (∀ r ∈ rs, r.deleted = false) ∧
    ∀ q ∈ m.walkProperties, ∀ name ∈ (m.prop q).typeNames, ∀ c ∈ m'.classOfType? name,
      (m'.decl c).isWrapper = false)
    ⟨fun ⟨h₁, h₂, h₃⟩ => ⟨h₁, h₂, h₃⟩, fun h => ⟨h.1, h.2, h.3⟩⟩

/-- No value of an object takes the place of another, nor that of its text or tag. -/
structure FieldsApart (m m' : Model) : Prop where
  nodup : ∀ c ∈ m.walk, (m.fields c).Nodup
  reserved : ∀ c ∈ m.walk, textField ∉ m'.fields c ∧ elementField ∉ m'.fields c

instance (m m' : Model) : Decidable (FieldsApart m m') :=
  decidable_of_iff ((∀ c ∈ m.walk, (m.fields c).Nodup) ∧
    ∀ c ∈ m.walk, textField ∉ m'.fields c ∧ elementField ∉ m'.fields c)
    ⟨fun ⟨h₁, h₂⟩ => ⟨h₁, h₂⟩, fun h => ⟨h.1, h.2⟩⟩

/-! ### Places and classes after a run -/

theorem stands_of_settles {r : Record} {w : ClassId} (h : r.Settles n m m' w q)
    (hd : (m.prop r.candidate.prop).Described) (ha : (m.prop r.candidate.prop).isAttribute = false)
    (hk : (m.prop r.candidate.prop).kind = .element ∨ (m.prop r.candidate.prop).kind = .any) :
    Stands m m' r.candidate.prop q := by
  obtain ⟨_, _, _, hq⟩ := h.standIn
  have hmixed : (m.prop r.candidate.prop).kind ≠ .mixed := by
    rcases hk with hk | hk <;> simp [hk]
  refine .wrapped (w := w) ha (by rw [hq]; rfl) (by rw [hq]; rfl) (h.alone hmixed) ?_ ?_
  · rw [h.moved]
    exact hd.synthetic
  · rw [h.moved]
    exact ⟨hk, rfl, rfl, rfl, fun hany => if_neg hany⟩

theorem Reshaped.stands (h : Reshaped n m rs m') (hm : m.Described) (hr : Retained m m' rs)
    (ha : ∀ r ∈ rs, (m.prop r.candidate.prop).isAttribute = false) (hc : c ∈ m.walk) :
    List.Forall₂ (Stands m m') (m.decl c).properties (m'.decl c).properties := by
  rw [h.properties c ((Model.mem_walk hm.toLinked).mp hc)]
  refine forall₂_flatMap fun p hp => ?_
  have hkind := hr.kind p (Model.mem_walkProperties hc hp)
  rcases h.slot_cases (hm.lt_of_mem hp) with ⟨-, hs, hq⟩ | ⟨r, hmem, rfl, hcases⟩
  · refine ⟨p, hs, .kept rfl hq (hm.prop p).reference (hm.prop p).instantiation ?_⟩
    rw [hq]
    exact hkind.imp_right fun hk => ⟨hk, rfl, rfl, rfl, fun _ => rfl⟩
  · have hattr := ha r hmem
    rcases hcases with ⟨hdr, -⟩ | ⟨-, w, q, hs, hset⟩
    · rw [hr.kept r hmem] at hdr
      cases hdr
    · have hkind := hkind.resolve_left (by simp [hattr])
      exact ⟨q, hs, stands_of_settles hset (hm.prop _) hattr hkind⟩

namespace Pass

variable {pass : Pass} {result : PassResult}

/-- A run carries the model if it keeps what documents need. -/
theorem carries_of_run (hm : s.model.Described) (h : pass.run.run s = .ok result t)
    (hr : Retained s.model t.model result.records) (hf : FieldsApart s.model t.model) :
    s.model.Carries t.model where
  isWrapper _ hc := (isWrapper_eq_false_iff_of_run hm h (mem_walk_of_run hm h hc)).mpr hc
  stands _ hc :=
    (reshaped_of_described hm h).stands hm hr (fun _ => isAttribute_of_run hm h) hc
  types p hp tag d hd :=
    (isWrapper_eq_false_iff_of_run hm h (mem_walk_of_classOfType? hd)).mp
      (hr.types p hp _ (Property.typeFor_mem_typeNames _ tag) d hd)
  nodup c hc := nodup_fields_of_run hm h hc (hf.nodup c hc)
  reserved := hf.reserved

/-- A document that follows its model comes back the same after a run. -/
theorem roundTrip_of_run {v : Value} {e : Xml.Element} (hm : Model.ofValue v = .ok s.model)
    (h : pass.run.run s = .ok result t) (hr : Retained s.model t.model result.records)
    (hf : FieldsApart s.model t.model) (hroot : rootClass t.model none e.tag = .ok c)
    (hc : Conforms s.model t.model c e) :
    ∃ d y, unmarshalElement t.model none e = .ok d ∧ marshalElement t.model d = .ok y ∧
      y.SameTree e := by
  have hd := Model.described_ofValue hm
  refine marshalElement_conforms (carries_of_run hd h hr hf) hroot ?_ hc
  exact (isWrapper_eq_false_iff_of_run hd h (mem_walk_of_rootClass hroot)).mp
    (bound_of_rootClass hroot).1

def ordersWith (name : String) : Value :=
  .object [("package", .text "shop"), ("classes", .list [
    .object [("name", .text "Order"), ("properties", .list [
      .object [("name", .text name), ("attribute", .bool true)],
      .object [("name", .text "item"), ("repeated", .bool true)]])]])]

def orderWith (name : String) : Xml.Element where
  tag := "Order"
  attributes := [(name, "3")]
  children := [{ tag := "item", text := "a" }, { tag := "item", text := "b" }]

/-- An order is bound to its class, which has the attribute and many items. -/
def ReadsOrders (m m' : Model) (name : String) : Prop :=
  (rootClass m' none "Order").toOption = some ⟨0⟩ ∧ (m.decl ⟨0⟩).properties = [⟨0⟩, ⟨1⟩] ∧
    ((m.prop ⟨0⟩).isAttribute = true ∧ (m.prop ⟨0⟩).name = name) ∧
    ((m.prop ⟨1⟩).isAttribute = false ∧ (m.prop ⟨1⟩).kind = .element ∧
      (m.prop ⟨1⟩).name = "item") ∧
    m'.classOfType? (typeFor (m.prop ⟨1⟩) "item") = none ∧ (m'.prop ⟨1⟩).multiplicity = .repeated

instance (m m' : Model) (name : String) : Decidable (ReadsOrders m m' name) :=
  inferInstanceAs (Decidable (_ ∧ _))

theorem ReadsOrders.conforms {name : String} (h : ReadsOrders m m' name) :
    rootClass m' none (orderWith name).tag = .ok ⟨0⟩ ∧ Conforms m m' ⟨0⟩ (orderWith name) := by
  obtain ⟨hroot, hc, ha, ⟨hattr, hkind, hname⟩, ht, hr⟩ := h
  have hvalue (text : String) : IsValue m m' (m.prop ⟨1⟩) { tag := "item", text } :=
    .text (by simp [hkind]) ht rfl rfl rfl
  have hitems : Follows m m' [⟨1⟩] ((orderWith name).children ++ []) := by
    refine .take hattr ?_ ?_ (absurd hr) (fun _ h => nomatch h) .nil
    · simp [orderWith, accepts, hkind, hname]
    · simp [orderWith, hvalue]
  refine ⟨toOption_eq_some.mp hroot, fun name' h => ?_, Or.inl rfl, rfl, hc ▸ .skip ha.1 hitems⟩
  refine ⟨⟨0⟩, by simp [hc], ha.1, ha.2.trans ?_⟩
  simpa [orderWith, Assoc.contains, Assoc.get?, apply_ite] using h

theorem roundTrip_of_orders_run : ∃ m result t d y, Model.ofValue (ordersWith "id") = .ok m ∧
    (⟨{}, none, {}⟩ : Pass).run.run { model := m } = .ok result t ∧
      result.wrappers.map t.model.qualifiedName = ["shop.Items"] ∧
      Retained m t.model result.records ∧ FieldsApart m t.model ∧
      Conforms m t.model ⟨0⟩ (orderWith "id") ∧
      unmarshalElement t.model none (orderWith "id") = .ok d ∧
      marshalElement t.model d = .ok y ∧ y.SameTree (orderWith "id") := by
  obtain ⟨m, result, t, hm, hr, hnamed, hret, hapart, hread⟩ :=
    exists_run_of_ran? ⟨{}, none, {}⟩ (ordersWith "id") (fun m result t =>
      result.wrappers.map t.model.qualifiedName = ["shop.Items"] ∧
      Retained m t.model result.records ∧ FieldsApart m t.model ∧ ReadsOrders m t.model "id")
    (by decide +kernel)
  obtain ⟨hroot, hc⟩ := hread.conforms
  obtain ⟨d, y, hd, hy, hsame⟩ := roundTrip_of_run hm hr hret hapart hroot hc
  exact ⟨m, result, t, d, y, hm, hr, hnamed, hret, hapart, hc, hd, hy, hsame⟩

/-- An attribute in the field of the text is written as the text too. -/
theorem attribute_comes_back_as_text : ¬ ∀ (v : Value) (p : Pass) (s t : PassState)
    (result : PassResult) (c : ClassId) (e : Xml.Element), Model.ofValue v = .ok s.model →
      p.run.run s = .ok result t → Retained s.model t.model result.records →
      rootClass t.model none e.tag = .ok c → Conforms s.model t.model c e →
        ∃ d y, unmarshalElement t.model none e = .ok d ∧ marshalElement t.model d = .ok y ∧
          y.SameTree e := by
  intro claim
  obtain ⟨m, result, t, hm, hr, hret, hread, htext⟩ :=
    exists_run_of_ran? ⟨{}, none, {}⟩ (ordersWith "value") (fun m result t =>
      Retained m t.model result.records ∧ ReadsOrders m t.model "value" ∧
      (unmarshalElement t.model none (orderWith "value") >>= fun d =>
        (marshalElement t.model d).map Xml.Element.text).toOption = some "3")
    (by decide +kernel)
  obtain ⟨hroot, hc⟩ := hread.conforms
  obtain ⟨d, y, hd, hy, hsame⟩ := claim _ _ { model := m } t result _ _ hm hr hret hroot hc
  rw [hd, toOption_eq_some] at htext
  have htext : (marshalElement t.model d).map Xml.Element.text = .ok "3" := htext
  rw [hy] at htext
  have hthree : y.text = "3" := Except.ok.inj htext
  obtain ⟨-, hempty, -⟩ := hsame
  simp [hthree, orderWith] at hempty

end Pass
end Enfold
