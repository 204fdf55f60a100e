import Mathlib.Data.List.Find
import Enfold.Proofs.Binding.Document
import Enfold.Proofs.Pass.Remains

/-! # Wrapping is transparent to documents

A document looks the same whether its model was wrapped or not: what one model rejects the other
rejects with the same error, and what both accept they write into the same element.
-/

namespace Enfold

open PassM Binding

variable {n : Naming} {m m' : Model} {s t : PassState} {c : ClassId} {p q : PropertyId}
  {rs : List Record} {r : Record}

/-- Elements alone are wrapped, and the old classes keep their names and types. -/
structure Unobtrusive (m m' : Model) (rs : List Record) (renamed : List ClassId) : Prop where
  unmixed : ∀ q ∈ m.walkProperties, (m.prop q).kind ≠ .mixed
  element : ∀ r ∈ rs, (m.prop r.candidate.prop).kind = .element
  kept : ∀ r ∈ rs, r.deleted = false
  named : ∀ c ∈ renamed, c ∉ m.walk
  nodup : ∀ c ∈ m.walk, (m.fields c).Nodup
  reserved : ∀ c ∈ m.walk, textField ∉ m.fields c ∧ elementField ∉ m.fields c
  reserved' : ∀ c ∈ m'.walk, textField ∉ m'.fields c ∧ elementField ∉ m'.fields c
  types : ∀ q ∈ m.walkProperties, ∀ name ∈ (m.prop q).typeNames,
    m'.classOfType? name = m.classOfType? name

instance (m m' : Model) (rs : List Record) (renamed : List ClassId) :
    Decidable (Unobtrusive m m' rs renamed) :=
  decidable_of_iff ((∀ q ∈ m.walkProperties, (m.prop q).kind ≠ .mixed) ∧
    (∀ r ∈ rs, (m.prop r.candidate.prop).kind = .element) ∧ (∀ r ∈ rs, r.deleted = false) ∧
    (∀ c ∈ renamed, c ∉ m.walk) ∧ (∀ c ∈ m.walk, (m.fields c).Nodup) ∧
    (∀ c ∈ m.walk, textField ∉ m.fields c ∧ elementField ∉ m.fields c) ∧
    (∀ c ∈ m'.walk, textField ∉ m'.fields c ∧ elementField ∉ m'.fields c) ∧
    ∀ q ∈ m.walkProperties, ∀ name ∈ (m.prop q).typeNames,
      m'.classOfType? name = m.classOfType? name)
    ⟨fun ⟨h₁, h₂, h₃, h₄, h₅, h₆, h₇, h₈⟩ => ⟨h₁, h₂, h₃, h₄, h₅, h₆, h₇, h₈⟩,
      fun h => ⟨h.1, h.2, h.3, h.4, h.5, h.6, h.7, h.8⟩⟩

def droppedOf (rs : List Record) : List PropertyId :=
  (rs.filter Record.deleted).map fun r => r.candidate.prop

def keptOf (rs : List Record) : List Record := rs.filter fun r => !r.deleted

/-! ### Places after a run -/

theorem flatMap_filter_of_nil {α β : Type} {f : α → List β} {keep : α → Bool} {l : List α}
    (h : ∀ a ∈ l, keep a = false → f a = []) : (l.filter keep).flatMap f = l.flatMap f := by
  induction l with
  | nil => rfl
  | cons a l ih =>
    have ih := ih fun b hb => h b (List.mem_cons_of_mem _ hb)
    rw [List.flatMap_cons]
    cases hk : keep a with
    | false => rw [List.filter_cons_of_neg (by simp [hk]), ih, h a List.mem_cons_self hk]; rfl
    | true => rw [List.filter_cons_of_pos hk, List.flatMap_cons, ih]

theorem forall₂_flatMap {α : Type} {R : α → α → Prop} {f : α → List α} {l : List α}
    (h : ∀ a ∈ l, ∃ b, f a = [b] ∧ R a b) : List.Forall₂ R l (l.flatMap f) := by
  induction l with
  | nil => exact .nil
  | cons a l ih =>
    obtain ⟨b, hb, hab⟩ := h a List.mem_cons_self
    rw [List.flatMap_cons, hb]
    exact .cons hab (ih fun a ha => h a (List.mem_cons_of_mem _ ha))

theorem wrapped_of_settles {w : ClassId} (h : r.Settles n m m' w q)
    (hd : (m.prop r.candidate.prop).Described) (hk : (m.prop r.candidate.prop).kind = .element)
    (hv : (m.prop r.candidate.prop).isMultiValued = true) :
    Wrapped m m' r.candidate.prop q := by
  obtain ⟨_, _, _, hq⟩ := h.standIn
  simp only [Property.isMultiValued, hk, ContentKind.isOpenEnded, Bool.or_false, Bool.and_eq_true,
    Bool.not_eq_true', decide_eq_true_eq] at hv
  refine ⟨hv.1.1.1, hv.2, ⟨?_, ?_, ?_, ?_⟩, ?_, ?_, w, ?_, h.alone (by simp [hk])⟩
  · rw [h.moved]
    rfl
  · rw [h.moved]
    rfl
  · rw [h.moved]
    simp [Property.moved, hk]
  · rw [h.moved]
    rfl
  · rw [h.moved]
    exact hd.synthetic
  · rw [hq]
    rfl
  · rw [hq]
    rfl

theorem mem_droppedOf : p ∈ droppedOf rs ↔
    ∃ r ∈ rs, r.deleted = true ∧ r.candidate.prop = p := by
  simp [droppedOf, and_assoc]

/-- Every place holds what it held, or a reference to a wrapper of it. -/
theorem Reshaped.places {renamed : List ClassId} (h : Reshaped n m rs m') (hm : m.Described)
    (hu : Unobtrusive m m' (keptOf rs) renamed)
    (hd : (rs.map fun r => r.candidate.prop).Nodup)
    (hv : ∀ r ∈ rs, (m.prop r.candidate.prop).isMultiValued = true) (hc : c ∈ m.walk) :
    List.Forall₂ (Place m m') (m.kept (droppedOf rs) c) (m'.decl c).properties := by
  have hgone : ∀ p ∈ (m.decl c).properties, decide (p ∉ droppedOf rs) = false →
      slot rs p = [] := by
    intro p _ hp
    obtain ⟨r, hr, hdr, rfl⟩ := mem_droppedOf.mp (by simpa using hp)
    rw [slot_of_mem hd hr, if_pos hdr]
  rw [h.properties c ((Model.mem_walk hm.toLinked).mp hc), ← flatMap_filter_of_nil hgone]
  refine forall₂_flatMap fun p hp => ?_
  obtain ⟨hp, hkept⟩ := List.mem_filter.mp hp
  have hpw := Model.mem_walkProperties hc hp
  have hplace {q} (hq : m'.prop q = m.prop p ∨ Wrapped m m' p q) : Place m m' p q :=
    ⟨(hm.prop p).reference, (hm.prop p).instantiation, hu.unmixed p hpw,
      fun tag => hu.types p hpw _ (Property.typeFor_mem_typeNames _ tag), hq⟩
  rcases h.slot_cases (hm.lt_of_mem hp) with
    ⟨-, hs, hq⟩ | ⟨r, hr, rfl, ⟨hdr, -⟩ | ⟨hdr, w, q, hs, hset⟩⟩
  · exact ⟨p, hs, hplace (Or.inl hq)⟩
  · have := mem_droppedOf.mpr ⟨r, hr, hdr, rfl⟩
    simp [this] at hkept
  · have hk := hu.element r (List.mem_filter.mpr ⟨hr, by simp [hdr]⟩)
    exact ⟨q, hs, hplace (Or.inr (wrapped_of_settles hset (hm.prop _) hk (hv r hr)))⟩

/-! ### Classes after a run -/

namespace Pass

variable {pass : Pass} {result : PassResult}

section Unobtrusive

variable (hm : s.model.Described) (h : pass.run.run s = .ok result t)
  (hu : Unobtrusive s.model t.model rs result.renamed)

include hm h hu

theorem decl_of_unobtrusive (hc : c ∈ s.model.walk) :
    ∃ ps, t.model.decl c = { s.model.decl c with properties := ps } :=
  decl_of_run hm h hc fun hr => hu.named c hr hc

theorem qualifiedName_of_unobtrusive (hc : c ∈ s.model.walk) :
    t.model.qualifiedName c = s.model.qualifiedName c := by
  refine Model.qualifiedName_congr_of (P := (· ∈ s.model.walk)) (fun {d} hd => ?_)
    (fun {c d} _ hp => ?_) hc
  · obtain ⟨_, hdecl⟩ := decl_of_unobtrusive hm h hu hd
    rw [hdecl]
    exact ⟨rfl, rfl, rfl⟩
  · exact (Model.mem_walk hm.toLinked).mpr (hm.toLinked.parent_lt_size hp)

theorem boundElement_of_unobtrusive (hc : c ∈ s.model.walk) :
    boundElement t.model c = boundElement s.model c := by
  obtain ⟨_, hd⟩ := decl_of_unobtrusive hm h hu hc
  rw [boundElement, hd]
  rfl

theorem findClass?_of_unobtrusive {name : String} (hf : s.model.findClass? name = some c) :
    t.model.findClass? name = some c := by
  have hc := List.mem_of_find?_eq_some hf
  have hname : s.model.qualifiedName c = name := by simpa using List.find?_some hf
  have hq := qualifiedName_of_unobtrusive hm h hu hc
  obtain ⟨ks, u, v, w, -, -, hp, ht, -, -, hr⟩ := run_stages hm h
  have hs := hr.reshaped hm.toLinked fun q => (hm.prop q).reference
  have hcv : c ∈ v.model.walk :=
    (hs.perm_walk hm.toLinked).mem_iff.mpr (List.mem_append_left _ hc)
  have := placeClasses_findClass? hs.linked hp hcv fun hn => hu.named c hn hc
  rwa [← ht, hq, hname] at this

theorem find?_bound_of_unobtrusive (tag : String) :
    t.model.walk.find? (fun c => !(t.model.decl c).isWrapper && boundElement t.model c = tag) =
      s.model.walk.find? fun c => !(s.model.decl c).isWrapper && boundElement s.model c = tag := by
  rw [← filter_walk_of_run hm h, List.find?_filter]
  refine List.find?_congr fun c hc => ?_
  by_cases hold : c.index < s.model.classes.size
  · have hcw := (Model.mem_walk hm.toLinked).mpr hold
    obtain ⟨_, hd⟩ := decl_of_unobtrusive hm h hu hcw
    rw [boundElement_of_unobtrusive hm h hu hcw, hd]
    simp [hold]
  · rw [isWrapper_of_run hm h hc hold]
    simp [hold]

theorem rootClass_of_unobtrusive {asked : Option String} (tag : String)
    (ha : asked.filter (· ≠ "") = none ∨
      ∃ c ∈ s.model.walk, asked = some (s.model.qualifiedName c)) :
    rootClass t.model asked tag = rootClass s.model asked tag := by
  unfold rootClass
  rw [find?_bound_of_unobtrusive hm h hu]
  cases hf : asked.filter (· ≠ "") with
  | none => rfl
  | some name =>
    obtain ⟨c, hc, rfl⟩ := ha.resolve_left (by rw [hf]; exact Option.some_ne_none name)
    obtain rfl : s.model.qualifiedName c = name :=
      Option.some.inj (Option.filter_eq_some_iff.mp hf).1
    dsimp only
    cases hfind : s.model.findClass? (s.model.qualifiedName c) with
    | none => exact absurd (List.find?_eq_none.mp hfind c hc) (by simp)
    | some d => rw [findClass?_of_unobtrusive hm h hu hfind]

end Unobtrusive

theorem rewrappedBut_of_unobtrusive (hm : s.model.Described) (h : pass.run.run s = .ok result t)
    (hu : Unobtrusive s.model t.model (keptOf result.records) result.renamed) :
    Model.RewrappedBut (droppedOf result.records) s.model t.model where
  isWrapper c hc := by
    obtain ⟨_, hd⟩ := decl_of_unobtrusive hm h hu hc
    exact ⟨hm.isWrapper c, by rw [hd]; exact hm.isWrapper c⟩
  qualifiedName _ hc := qualifiedName_of_unobtrusive hm h hu hc
  boundElement _ hc := boundElement_of_unobtrusive hm h hu hc
  places _ hc := (reshaped_of_described hm h).places hm hu (nodup_of_run hm h)
    (fun _ => isMultiValued_of_run hm h) hc
  plain c hc p hp hd := by
    obtain ⟨r, hr, -, rfl⟩ := mem_droppedOf.mp hd
    have hv := isMultiValued_of_run hm h hr
    simp only [Property.isMultiValued, Bool.and_eq_true, Bool.not_eq_true'] at hv
    exact ⟨hv.1.1.1, (hm.prop _).reference, hu.unmixed _ (Model.mem_walkProperties hc hp)⟩
  nodup c hc := ⟨hu.nodup c hc, nodup_fields_of_run hm h hc (hu.nodup c hc)⟩
  reserved c hc f hf := by
    have hc' : c ∈ t.model.walk :=
      ((reshaped_of_described hm h).perm_walk hm.toLinked).mem_iff.mpr (List.mem_append_left _ hc)
    rcases hf with rfl | rfl
    · exact ⟨(hu.reserved c hc).1, (hu.reserved' c hc').1⟩
    · exact ⟨(hu.reserved c hc).2, (hu.reserved' c hc').2⟩

theorem rewrapped_of_unobtrusive (hm : s.model.Described) (h : pass.run.run s = .ok result t)
    (hu : Unobtrusive s.model t.model result.records result.renamed) :
    s.model.Rewrapped t.model := by
  have hkept : keptOf result.records = result.records :=
    List.filter_eq_self.mpr fun r hr => by simp [hu.kept r hr]
  have hnone : droppedOf result.records = [] := by
    rw [droppedOf, List.filter_eq_nil_iff.mpr fun r hr => by simp [hu.kept r hr], List.map_nil]
  have hre := rewrappedBut_of_unobtrusive hm h (hkept.symm ▸ hu)
  rwa [hnone] at hre

/-- Both models reject an element with the same error, or write it alike. -/
theorem documents_of_run {v : Value} {asked : Option String} (hm : Model.ofValue v = .ok s.model)
    (h : pass.run.run s = .ok result t)
    (hu : Unobtrusive s.model t.model result.records result.renamed)
    (ha : asked.filter (· ≠ "") = none ∨
      ∃ c ∈ s.model.walk, asked = some (s.model.qualifiedName c)) (e : Xml.Element) :
    Agree (fun d d' => ∃ x, marshalElement s.model d = .ok x ∧ marshalElement t.model d' = .ok x)
      (unmarshalElement s.model asked e) (unmarshalElement t.model asked e) := by
  have hd := Model.described_ofValue hm
  exact unmarshalElement_alike (rewrapped_of_unobtrusive hd h hu)
    (rootClass_of_unobtrusive hd h hu e.tag ha)

def parcels : Value :=
  .object [("package", .text "post"), ("classes", .list [
    .object [("name", .text "Parcel"), ("properties", .list [
      .object [("name", .text "item"), ("type", .text "Item"), ("repeated", .bool true)],
      .object [("name", .text "weight"), ("type", .text "str")],
      .object [("name", .text "id"), ("attribute", .bool true)]])],
    .object [("name", .text "Item"), ("properties", .list [
      .object [("name", .text "code"), ("attribute", .bool true)]])]])]

def parcel : Xml.Element where
  tag := "Parcel"
  attributes := [("id", "7")]
  children := [{ tag := "item", attributes := [("code", "a")] }, { tag := "item", text := "b" },
    { tag := "weight", text := "3" }]

theorem documents_of_parcels_run : ∃ m result t d d', Model.ofValue parcels = .ok m ∧
    (⟨{}, none, {}⟩ : Pass).run.run { model := m } = .ok result t ∧ result.records.length = 1 ∧
      Unobtrusive m t.model result.records result.renamed ∧
      unmarshalElement m none parcel = .ok d ∧ unmarshalElement t.model none parcel = .ok d' ∧
      ∃ x, marshalElement m d = .ok x ∧ marshalElement t.model d' = .ok x := by
  obtain ⟨⟨m, result, t⟩, h⟩ : ∃ x, (⟨{}, none, {}⟩ : Pass).ran? parcels = some x :=
    Option.isSome_iff_exists.mp (by decide +kernel)
  have hall : ((⟨{}, none, {}⟩ : Pass).ran? parcels).map (fun x =>
      (x.2.1.records.length, decide (Unobtrusive x.1 x.2.2.model x.2.1.records x.2.1.renamed),
        (unmarshalElement x.1 none parcel).isOk)) = some (1, true, true) := by decide +kernel
  rw [h, Option.map_some, Option.some.injEq, Prod.mk.injEq, Prod.mk.injEq,
    decide_eq_true_iff] at hall
  obtain ⟨hlength, hu, hok⟩ := hall
  obtain ⟨hm, hr⟩ := ran?_eq_some h
  have hdoc : Agree (fun d d' => ∃ x, marshalElement m d = .ok x ∧
      marshalElement t.model d' = .ok x) (unmarshalElement m none parcel)
        (unmarshalElement t.model none parcel) := documents_of_run hm hr hu (Or.inl rfl) parcel
  revert hdoc hok
  generalize hd : unmarshalElement m none parcel = x
  generalize hd' : unmarshalElement t.model none parcel = x'
  rintro hok (_ | hx)
  · cases hok
  · exact ⟨m, result, t, _, _, hm, hr, hlength, hu, hd, hd', hx⟩

end Pass
end Enfold
