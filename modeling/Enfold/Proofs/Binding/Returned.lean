import Enfold.Proofs.Binding.Kept
import Enfold.Proofs.Pass.Run

/-! # Documents that come back

Every document that is read can be written again, and comes back by the rules for its class. It
comes back with all its elements and attributes if the model has room for them: if attributes of
objects are declared, and elements that are read for their text have nothing but text.
-/

namespace Enfold

/-- All that is read for an object has fields of its own, and wrappers refer to none. -/
structure Model.HoldsApart (m : Model) : Prop where
  references : ∀ p ∈ m.walkProperties, ∀ w ∈ (m.prop p).reference, w ∈ m.walk ∧
    ∀ q ∈ (m.decl w).properties, (m.prop q).reference = none
  nodup : ∀ c ∈ m.walk, (m.fields c).Nodup
  reserved : ∀ c ∈ m.walk, (m.decl c).isWrapper = false →
    textField ∉ m.fields c ∧ elementField ∉ m.fields c
  runs : ∀ c ∈ m.walk, Binding.RunsApart m c

instance (m : Model) : Decidable m.HoldsApart :=
  decidable_of_iff ((∀ p ∈ m.walkProperties, ∀ w ∈ (m.prop p).reference, w ∈ m.walk ∧
        ∀ q ∈ (m.decl w).properties, (m.prop q).reference = none) ∧
      (∀ c ∈ m.walk, (m.fields c).Nodup) ∧
      (∀ c ∈ m.walk, (m.decl c).isWrapper = false →
        textField ∉ m.fields c ∧ elementField ∉ m.fields c) ∧
      ∀ c ∈ m.walk, Binding.RunsApart m c)
    ⟨fun ⟨h₁, h₂, h₃, h₄⟩ => ⟨h₁, h₂, h₃, h₄⟩, fun h => ⟨h.1, h.2, h.3, h.4⟩⟩

/-- No type means a wrapper, but for those of the properties that refer to one. -/
def Model.NoWrapperTypes (m : Model) : Prop :=
  ∀ p ∈ m.walkProperties, (m.prop p).reference = none → ∀ name ∈ (m.prop p).typeNames,
    ∀ c ∈ m.classOfType? name, (m.decl c).isWrapper = false

instance (m : Model) : Decidable m.NoWrapperTypes :=
  inferInstanceAs (Decidable (∀ p ∈ _, _))

namespace Binding

variable {m : Model} {c d w : ClassId} {x : Property} {p q : PropertyId} {fs gs hs : Fields}
  {xs vs : List Datum} {e k y z parent : Xml.Element} {es es' ys : List Xml.Element}
  {s t u : Progress} {ps qs l : List PropertyId} {ks rest : List Child}

theorem unwrapping (ht : m.NoWrapperTypes) (hp : p ∈ m.walkProperties)
    (hr : (m.prop p).reference = none) : Unwrapping m (m.prop p) :=
  fun tag d hd => ht p hp hr _ (Property.typeFor_mem_typeNames _ tag) d hd

/-! ### One place -/

/-- Children that were kept, and the attributes of `e` that some properties declare, have come in.
-/
structure Gains (m : Model) (c : ClassId) (e : Xml.Element) (ps : List PropertyId)
    (es : List Xml.Element) (parent y : Xml.Element) : Prop where
  tag : y.tag = parent.tag
  children : ∃ ys, List.Forall₂ (KeptChild m c) es ys ∧ y.children = parent.children ++ ys
  attributes : ∀ name, Assoc.get? name y.attributes =
    if declares m ps name then (Assoc.get? name e.attributes).or (Assoc.get? name parent.attributes)
    else Assoc.get? name parent.attributes

theorem Gains.trans (h : Gains m c e ps es parent y) (h' : Gains m c e qs es' y z) :
    Gains m c e (ps ++ qs) (es ++ es') parent z where
  tag := h'.tag.trans h.tag
  children := by
    obtain ⟨ys, hys, hy⟩ := h.children
    obtain ⟨zs, hzs, hz⟩ := h'.children
    exact ⟨ys ++ zs, List.rel_append hys hzs, by rw [hz, hy, List.append_assoc]⟩
  attributes name := attributes_append (h.attributes name) (h'.attributes name)

theorem Grows.gains (ha : (m.prop q).isAttribute = false)
    (h : Grows (KeptChild m c) es parent y) : Gains m c e [q] es parent y where
  tag := h.tag
  children := h.children
  attributes name := by
    have hd : declares m [q] name = false := by simp [declares, ha]
    rw [hd, h.attributes]
    rfl

/-- Where reading a place has led, which is written as what comes back of the element. -/
structure PlaceKept (m : Model) (c : ClassId) (e : Xml.Element) (q : PropertyId) (s t : Progress) :
    Prop where
  beside : SameBeside (m.prop q).field s.1 t.1
  taken : ∃ taken, s.2 = taken ++ t.2 ∧ ∀ hs parent,
    Assoc.get? (m.prop q).field hs = Assoc.get? (m.prop q).field t.1 →
      (Mixes m c → Assoc.get? textRunsName hs = none) →
        ∃ y, writeProperty m (fieldWriters m hs) parent q = .ok y ∧
          Gains m c e [q] (taken.map Child.element) parent y

theorem placeKept_of_attribute (ha : (m.prop q).isAttribute = true)
    (hnone : Assoc.get? (m.prop q).field s.1 = none) (h : readProperty m c e s q = .ok t) :
    PlaceKept m c e q s t := by
  obtain ⟨fs, ks⟩ := s
  obtain ⟨gs, hread, hback⟩ := readProperty_attribute (c := c) (e := e) ha rfl hnone
  rw [hread] at h
  cases h
  refine ⟨hback.beside, [], rfl, fun hs parent hhs _ => ?_⟩
  obtain ⟨y, hy, hadds⟩ := hback.writes hs parent hhs
  obtain ⟨ys, hys, hchildren⟩ := hadds.children
  cases hys
  exact ⟨y, hy, hadds.tag, ⟨[], .nil, hchildren⟩, hadds.attributes⟩

section Elements

variable (hm : m.HoldsApart) (ht : m.NoWrapperTypes) (hc : c ∈ m.walk)
  (hq : q ∈ (m.decl c).properties) (ha : (m.prop q).isAttribute = false)
  (hk : ∀ k ∈ s.2, ChildKept m k)
include hm ht hc hq ha hk

theorem placeKept_of_wrapper (hr : (m.prop q).reference = some w)
    (h : readProperty m c e s q = .ok t) : PlaceKept m c e q s t := by
  obtain ⟨fs, ks⟩ := s
  obtain ⟨hw, hrw⟩ := hm.references q (Model.mem_walkProperties hc hq) w hr
  obtain ⟨u, hu, rfl⟩ := readProperty_of_reference ha hr h
  have hback : TakenBack m c w (m.decl w).properties (Instance.fresh m w, ks) u :=
    readWrapped_takenBack (hm.runs w hw) (fun _ hp => hp) (hm.nodup w hw)
      (fun p hp hs => mem_itemProperties_wrapped hq ha hr hp hs)
      (fun p hp => unwrapping ht (Model.mem_walkProperties hw hp) (hrw p hp)) hk
      ⟨fun _ _ _ => Instance.has_fresh _ _ _, fun _ => Instance.has_fresh _ _ _⟩ hu
  obtain ⟨taken, hks, hwrite⟩ := hback.taken
  refine ⟨sameBeside_put _ _ _, taken, hks, fun hs parent hhs _ => ?_⟩
  rw [Assoc.get?_put_self] at hhs
  obtain ⟨y, hy, hgrows⟩ := hwrite u.1 ⟨fun _ _ _ => rfl, fun _ => rfl⟩ parent
  refine ⟨y, ?_, hgrows.gains ha⟩
  rw [writeProperty_of_reference ha (by rw [hr]; rfl) hhs]
  exact hy

variable (hcw : (m.decl c).isWrapper = false) (hr : (m.prop q).reference = none)
  (hnone : Assoc.get? (m.prop q).field s.1 = none)
include hcw hr hnone

theorem placeKept_of_mixed (hmixed : (m.prop q).kind = .mixed)
    (h : readProperty m c e s q = .ok t) : PlaceKept m c e q s t := by
  obtain ⟨fs, ks⟩ := s
  have hmixes : Mixes m c := ⟨q, hq, hmixed⟩
  have hapart := hm.runs c hc
  have hx := unwrapping ht (Model.mem_walkProperties hc hq) hr
  -- No property of a class that is no wrapper is for runs of text.
  have hnoruns : m.propertyNamed? c textRunsName = none := by
    refine Option.eq_none_iff_forall_ne_some.mpr fun p hp => ?_
    obtain ⟨hpm, hname⟩ := mem_of_propertyNamed? hp
    rcases hapart hmixes p hpm with ⟨hw, -⟩ | ⟨hn, -⟩
    · simp [hcw] at hw
    · exact hn hname
  rw [readProperty_of_mixed ha hr hmixed] at h
  obtain ⟨hrest, vs, hvs, hkept, -, hb⟩ := readMixed_kept hx hk
    (hapart.apartFrom hmixes hq (Or.inl hcw)) (Or.inr ⟨hnone, rfl⟩) (by simp [hnoruns]) h
  refine ⟨fun f hf => hb f hf (by simp [hnoruns]), ks, by rw [hrest, List.append_nil],
    fun hs parent hhs hruns => ?_⟩
  have hhas := hvs.congr hhs
  obtain ⟨y, hy, hgrows⟩ := writeMixed_kept (m := m) hkept hhas
    (hasRuns_of_empty (Or.inr ⟨hruns hmixes, rfl⟩)) parent
  rcases hhas with ⟨kind, hkind⟩ | ⟨habsent, rfl⟩
  · refine ⟨y, ?_, Grows.gains ha (hgrows.imp fun k _ y hk => ?_)⟩
    · rw [writeProperty_of_mixed ha hr hmixed ⟨kind, hkind⟩]
      exact hy
    · exact ⟨q, mem_itemProperties_own hq ha hr, takesItem_of_mixed hmixed _, hk⟩
  · refine ⟨parent, writeProperty_of_absent habsent, Grows.gains ha ?_⟩
    rw [List.forall₂_nil_left_iff.mp hkept]
    exact .refl parent

omit hm hcw in
theorem placeKept_of_items (hmixed : (m.prop q).kind ≠ .mixed)
    (h : readProperty m c e s q = .ok t) : PlaceKept m c e q s t := by
  obtain ⟨fs, ks⟩ := s
  have hplain : Plain (m.prop q) := ⟨ha, hr, hmixed⟩
  have hx := unwrapping ht (Model.mem_walkProperties hc hq) hr
  have child {k y : Xml.Element} (hacc : accepts (m.prop q) k.tag = true)
      (hkept : KeptAs m (m.prop q) k y) : KeptChild m c k y :=
    ⟨q, mem_itemProperties_own hq ha hr, takesItem_of_accepts hacc, hkept⟩
  have hmissed : PlaceKept m c e q (fs, ks) (fs, ks) :=
    ⟨.refl _ _, [], rfl, fun hs parent hhs _ => ⟨parent, writeProperty_of_absent (hhs.trans hnone),
      Grows.gains ha (.refl parent)⟩⟩
  by_cases hrep : (m.prop q).multiplicity = .repeated
  · rw [readProperty_of_repeated hplain hrep] at h
    obtain ⟨taken, vs, hks, hacc, hvs, hb, hkept⟩ := readItems_kept hx hk (Or.inr ⟨hnone, rfl⟩) h
    refine ⟨hb, taken, hks, fun hs parent hhs _ => ?_⟩
    obtain ⟨y, hy, hgrows⟩ := writeItems_kept hkept parent
    refine ⟨y, ?_, Grows.gains ha (hgrows.imp fun k hk y hkept => ?_)⟩
    · rw [writeProperty_of_repeated hplain hrep (hvs.congr hhs)]
      exact hy
    · obtain ⟨k', hk', rfl⟩ := List.mem_map.mp hk
      exact child (hacc k' hk') hkept
  · cases ks with
    | nil =>
      rw [readProperty_nil hplain hrep] at h
      cases h
      exact hmissed
    | cons k ks =>
      rw [readProperty_cons hplain hrep] at h
      split at h
      · next hacc =>
        obtain ⟨v, hv, rfl⟩ := exceptMap_eq_ok.mp h
        obtain ⟨hnull, z, hz, hkept⟩ := readValue_kept hx (hk k List.mem_cons_self) hv
        refine ⟨sameBeside_put _ _ _, [k], rfl, fun hs parent hhs _ => ?_⟩
        rw [Assoc.get?_put_self] at hhs
        refine ⟨addChild parent z, ?_, Grows.gains ha (.addChild (child hacc hkept) parent)⟩
        rw [hplain.writeProperty hhs hnull, if_neg hrep, hz]
        rfl
      · cases h
        exact hmissed

end Elements

/-- The step of reading: what one place takes comes back. -/
theorem placeKept_of_read (hm : m.HoldsApart) (ht : m.NoWrapperTypes) (hc : c ∈ m.walk)
    (hcw : (m.decl c).isWrapper = false) (hq : q ∈ (m.decl c).properties)
    (hk : ∀ k ∈ s.2, ChildKept m k) (hnone : Assoc.get? (m.prop q).field s.1 = none)
    (h : readProperty m c e s q = .ok t) : PlaceKept m c e q s t := by
  cases ha : (m.prop q).isAttribute with
  | true => exact placeKept_of_attribute ha hnone h
  | false =>
    cases hr : (m.prop q).reference with
    | some w => exact placeKept_of_wrapper hm ht hc hq ha hk hr h
    | none =>
      by_cases hmixed : (m.prop q).kind = .mixed
      · exact placeKept_of_mixed hm ht hc hq ha hk hcw hr hnone hmixed h
      · exact placeKept_of_items ht hc hq ha hk hr hnone hmixed h

/-! ### All places of a class -/

structure PlacesKept (m : Model) (c : ClassId) (e : Xml.Element) (l : List PropertyId)
    (s t : Progress) : Prop where
  beside : ∀ f, f ∉ l.map (fun q => (m.prop q).field) → Assoc.get? f t.1 = Assoc.get? f s.1
  taken : ∃ taken, s.2 = taken ++ t.2 ∧ ∀ hs parent,
    (∀ q ∈ l, Assoc.get? (m.prop q).field hs = Assoc.get? (m.prop q).field t.1) →
      (Mixes m c → Assoc.get? textRunsName hs = none) →
        ∃ y, l.foldlM (writeProperty m (fieldWriters m hs)) parent = .ok y ∧
          Gains m c e l (taken.map Child.element) parent y

theorem PlaceKept.cons (h : PlaceKept m c e q s t) (h' : PlacesKept m c e l t u)
    (hq : (m.prop q).field ∉ l.map fun q => (m.prop q).field) :
    PlacesKept m c e (q :: l) s u := by
  obtain ⟨taken, hks, hwrite⟩ := h.taken
  obtain ⟨taken', hks', hwrite'⟩ := h'.taken
  refine ⟨fun f hf => ?_, taken ++ taken', ?_, fun hs parent hhs hruns => ?_⟩
  · rw [List.map_cons, List.mem_cons, not_or] at hf
    rw [h'.beside f hf.2, h.beside f hf.1]
  · rw [hks, hks', List.append_assoc]
  · obtain ⟨y, hy, hgains⟩ :=
      hwrite hs parent ((hhs q List.mem_cons_self).trans (h'.beside _ hq)) hruns
    obtain ⟨z, hz, hgains'⟩ :=
      hwrite' hs y (fun q' hq' => hhs q' (List.mem_cons_of_mem q hq')) hruns
    refine ⟨z, ?_, ?_⟩
    · rw [List.foldlM_cons, hy]
      exact hz
    · rw [List.map_append]
      exact hgains.trans hgains'

/-- The run of reading: what the places of a class take comes back. -/
theorem placesKept_of_read (hm : m.HoldsApart) (ht : m.NoWrapperTypes) (hc : c ∈ m.walk)
    (hcw : (m.decl c).isWrapper = false) (hl : ∀ q ∈ l, q ∈ (m.decl c).properties)
    (hn : (l.map fun q => (m.prop q).field).Nodup) (hk : ∀ k ∈ s.2, ChildKept m k)
    (hnone : ∀ q ∈ l, Assoc.get? (m.prop q).field s.1 = none)
    (h : l.foldlM (readProperty m c e) s = .ok t) : PlacesKept m c e l s t := by
  induction l generalizing s with
  | nil =>
    cases h
    exact ⟨fun _ _ => rfl, [], rfl, fun hs parent _ _ =>
      ⟨parent, rfl, rfl, ⟨[], .nil, (List.append_nil _).symm⟩, fun _ => rfl⟩⟩
  | cons q l ih =>
    rw [List.foldlM_cons] at h
    obtain ⟨u, hu, h⟩ := exceptBind_eq_ok.mp h
    obtain ⟨hq, hn⟩ := List.nodup_cons.mp hn
    have later {q'} (hq' : q' ∈ l) := List.mem_cons_of_mem q hq'
    have hplace := placeKept_of_read hm ht hc hcw (hl q List.mem_cons_self) hk
      (hnone q List.mem_cons_self) hu
    obtain ⟨taken, hks, -⟩ := hplace.taken
    refine hplace.cons (ih (fun q' hq' => hl q' (later hq')) hn ?_ ?_ h) hq
    · exact fun k hku => hk k (hks ▸ List.mem_append_right _ hku)
    · intro q' hq'
      rw [hplace.beside, hnone q' (later hq')]
      exact fun hqq => hq (List.mem_map.mpr ⟨q', hq', hqq⟩)

/-! ### Objects and documents -/

theorem PlacesKept.writes {us : Fields} (text : String) (hm : m.HoldsApart) (hc : c ∈ m.walk)
    (hcw : (m.decl c).isWrapper = false) (hks : ks.map Child.element = e.children)
    (h : PlacesKept m c e (m.decl c).properties ([], ks) (gs, []))
    (hus : SameBeside textField gs us)
    (htext : Assoc.get? textField us = none ∨ Assoc.get? textField us = some (.text text)) :
    ∀ hs tag, SameBeside elementField us hs →
      ∃ y, writeObject m c (fieldWriters m hs) tag = .ok y ∧ y.tag = tag ∧ Kept m c e y := by
  intro hs tag hhs
  obtain ⟨hrt, hre⟩ := hm.reserved c hc hcw
  obtain ⟨taken, htaken, hwrite⟩ := h.taken
  rw [List.append_nil] at htaken
  have hsame {f : String} (ht : f ≠ textField) (he : f ≠ elementField) :
      Assoc.get? f hs = Assoc.get? f gs := (hhs f he).trans (hus f ht)
  have hfields : ∀ q ∈ (m.decl c).properties,
      Assoc.get? (m.prop q).field hs = Assoc.get? (m.prop q).field gs := fun q hq => by
    have hf : (m.prop q).field ∈ m.fields c := List.mem_map_of_mem hq
    exact hsame (fun he => hrt (he ▸ hf)) fun he => hre (he ▸ hf)
  have hruns (hmixes : Mixes m c) : Assoc.get? textRunsName hs = none := by
    rw [hsame (by decide) (by decide)]
    refine h.beside _ fun hf => ?_
    obtain ⟨q, hq, hfield⟩ := List.mem_map.mp hf
    exact (hm.runs c hc).field_ne hmixes hq (Or.inl hcw) hfield
  have hobject (text : String) : ∃ y,
      (m.decl c).properties.foldlM (writeProperty m (fieldWriters m hs)) { tag, text } = .ok y ∧
        y.tag = tag ∧ Kept m c e y := by
    obtain ⟨y, hy, hgains⟩ := hwrite hs { tag, text } hfields hruns
    obtain ⟨ys, hys, hchildren⟩ := hgains.children
    have htakenks : taken = ks := htaken.symm
    rw [htakenks, hks] at hys
    refine ⟨y, hy, hgains.tag, fun name => ?_, ?_⟩
    · rw [hgains.attributes, Assoc.get?_nil, Option.or_none]
    · rw [hchildren]
      exact keptAll_of_forall₂ hys
  unfold writeObject
  rw [get?_fieldWriters, hhs textField (by decide)]
  rcases htext with hnone | hsome
  · rw [hnone]
    exact hobject ""
  · rw [hsome]
    exact hobject text

theorem readObject_kept (hm : m.HoldsApart) (ht : m.NoWrapperTypes) (hc : c ∈ m.walk)
    (hcw : (m.decl c).isWrapper = false) (hk : ∀ k ∈ ks, ChildKept m k)
    (hks : ks.map Child.element = e.children) : ReadsKept m c e (readObject m c e ks) := by
  intro v h
  obtain ⟨⟨gs, rest⟩, hrun, h⟩ := exceptBind_eq_ok.mp h
  obtain ⟨hrt, hre⟩ := hm.reserved c hc hcw
  rw [Instance.fresh_of_not_wrapper hcw] at hrun
  have hplaces := placesKept_of_read hm ht hc hcw (fun _ hq => hq) (hm.nodup c hc) hk
    (fun _ _ => rfl) hrun
  have hnone {f : String} (hf : f ∉ m.fields c) : Assoc.get? f gs = none := hplaces.beside f hf
  cases rest with
  | cons k rest =>
    -- A child that is left is an error.
    simp only [hcw] at h
    cases h
  | nil =>
    dsimp only at h
    split at h
    · cases h
      refine ⟨_, rfl, ?_, fun hs tag hhs => ?_⟩
      · rw [Assoc.get?_put_of_ne (by decide), hnone hre]
      · exact hplaces.writes e.text hm hc hcw hks (sameBeside_put _ _ _)
          (Or.inr (Assoc.get?_put_self _ _ _)) hs tag hhs
    · cases h
      exact ⟨_, rfl, hnone hre,
        hplaces.writes "" hm hc hcw hks (.refl _ _) (Or.inl (hnone hrt))⟩

mutual

theorem reader_kept (hm : m.HoldsApart) (ht : m.NoWrapperTypes) : ∀ (e : Xml.Element)
    {c : ClassId}, c ∈ m.walk → (m.decl c).isWrapper = false → ReadsKept m c e (reader m e c)
  | ⟨_, _, _, _, children⟩, _, hc, hcw =>
    readObject_kept hm ht hc hcw (childReaders_kept hm ht children) (element_childReaders children)

theorem childReaders_kept (hm : m.HoldsApart) (ht : m.NoWrapperTypes) : ∀ es : List Xml.Element,
    ∀ k ∈ childReaders m es, ChildKept m k
  | [], _, hk => nomatch hk
  | e :: es, k, hk => by
    rcases List.mem_cons.mp hk with rfl | hk
    · exact fun d hd hdw => reader_kept hm ht e hd hdw
    · exact childReaders_kept hm ht es k hk

end

/-! ### Documents that the model has room for -/

/-- Elements with the same attributes and elements in the same places. -/
inductive SameOutline : Xml.Element → Xml.Element → Prop
  | intro {e y : Xml.Element} (tag : y.tag = e.tag)
      (attributes : ∀ name, Assoc.get? name y.attributes = Assoc.get? name e.attributes)
      (children : List.Forall₂ SameOutline e.children y.children) : SameOutline e y

mutual

/-- The model has room for all of an element, whichever properties take its children. -/
def roomFor (m : Model) : Xml.Element → ClassId → Bool
  | ⟨_, attributes, _, _, children⟩, c =>
    (attributes.all fun a => declares m (m.decl c).properties a.1) &&
      roomForAll m ((itemProperties m c).map m.prop) children

/-- An element that is read for its text has no attributes and no children. -/
def roomForAll (m : Model) (xs : List Property) : List Xml.Element → Bool
  | [] => true
  | e :: es =>
    (xs.all fun x => !takesItem x e.tag || x.kind = .any ||
      match m.classOfType? (typeFor x e.tag) with
      | none => x.kind = .mixed || e.tag = x.name && e.attributes.isEmpty && e.children.isEmpty
      | some d => roomFor m e d) && roomForAll m xs es

end

mutual

theorem SameOutline.refl : ∀ e : Xml.Element, SameOutline e e
  | ⟨_, _, _, _, children⟩ => ⟨rfl, fun _ => rfl, SameOutline.refl_all children⟩

theorem SameOutline.refl_all : ∀ es : List Xml.Element, List.Forall₂ SameOutline es es
  | [] => .nil
  | e :: es => .cons (SameOutline.refl e) (SameOutline.refl_all es)

end

mutual

theorem Kept.sameOutline : ∀ (e : Xml.Element) {c : ClassId} {y : Xml.Element},
    roomFor m e c = true → Kept m c e y → y.tag = e.tag → SameOutline e y
  | ⟨_, attributes, _, _, children⟩, c, y, hroom, ⟨hattributes, hchildren⟩, htag => by
    rw [roomFor, Bool.and_eq_true, List.all_eq_true] at hroom
    refine ⟨htag, fun name => ?_, KeptAll.sameOutline children hroom.2 hchildren⟩
    rw [hattributes]
    split
    · rfl
    · next hd =>
      cases hv : Assoc.get? name attributes with
      | none => rfl
      | some v => exact absurd (hroom.1 _ (Assoc.mem_of_get? hv)) hd

theorem KeptAll.sameOutline : ∀ (es : List Xml.Element) {c : ClassId} {ys : List Xml.Element},
    roomForAll m ((itemProperties m c).map m.prop) es = true → KeptAll m c es ys →
      List.Forall₂ SameOutline es ys
  | [], _, _, _, .nil => .nil
  | e :: es, c, _, hroom, .cons (p := p) (y := y) hp htakes hkept hrest => by
    rw [roomForAll, Bool.and_eq_true, List.all_eq_true] at hroom
    refine .cons ?_ (KeptAll.sameOutline es hroom.2 hrest)
    have hx := hroom.1 (m.prop p) (List.mem_map_of_mem hp)
    cases hkept with
    | whole kind tag attributes text children =>
      refine ⟨tag, fun name => by rw [attributes], ?_⟩
      rw [children]
      exact SameOutline.refl_all _
    | text kind type tag attributes text children =>
      simp only [htakes, kind.1, kind.2, type, Bool.not_true, Bool.false_or, decide_false,
        Bool.and_eq_true, decide_eq_true_eq, List.isEmpty_iff] at hx
      obtain ⟨⟨hname, hattributes⟩, hchildren⟩ := hx
      refine ⟨tag.trans hname.symm, fun name => by rw [attributes, hattributes], ?_⟩
      rw [children, hchildren]
      exact .nil
    | object kind type tag kept =>
      simp only [htakes, kind, type, Bool.not_true, Bool.false_or, decide_false] at hx
      exact Kept.sameOutline e hx kept tag

end

/-- Every document that is read can be written again, and is the same if the model has room for all
of it. -/
theorem returned_of_unmarshalElement {asked : Option String} {v : Datum} (hm : m.HoldsApart)
    (ht : m.NoWrapperTypes)
    (hroot : ∀ c, rootClass m asked e.tag = .ok c → (m.decl c).isWrapper = false)
    (h : unmarshalElement m asked e = .ok v) :
    ∃ c y, rootClass m asked e.tag = .ok c ∧ marshalElement m v = .ok y ∧
      y.tag = boundElement m c ∧ Kept m c e y ∧
        (roomFor m e c = true → boundElement m c = e.tag → SameOutline e y) := by
  obtain ⟨c, hc, hread⟩ := exceptBind_eq_ok.mp h
  obtain ⟨fs, rfl, -, hwrite⟩ :=
    reader_kept hm ht e (mem_walk_of_rootClass hc) (hroot c hc) v hread
  obtain ⟨y, hy, htag, hkept⟩ := hwrite fs (boundElement m c) (.refl _ _)
  exact ⟨c, y, hc, hy, htag, hkept, fun hroom hbound =>
    hkept.sameOutline e hroom (htag.trans hbound)⟩

def letters : Value :=
  .object [("package", .text "post"), ("classes", .list [
    .object [("name", .text "Letter"), ("properties", .list [
      .object [("name", .text "id"), ("attribute", .bool true)],
      .object [("name", .text "subject")],
      .object [("name", .text "copy"), ("type", .text "Person"), ("repeated", .bool true)],
      .object [("name", .text "body"), ("kind", .text "mixed"), ("repeated", .bool true)]])],
    .object [("name", .text "Person"), ("properties", .list [
      .object [("name", .text "name"), ("attribute", .bool true)]])]])]

def letter : Xml.Element where
  tag := "Letter"
  attributes := [("id", "7")]
  text := "Dear "
  children := [{ tag := "subject", text := "a" }, { tag := "copy", attributes := [("name", "Bob")] },
    { tag := "b", text := "all", tail := "!", children := [{ tag := "i" }] }]

theorem returned_of_letter : ∃ m result t v c y, Model.ofValue letters = .ok m ∧
    (⟨{}, none, {}⟩ : Pass).run.run { model := m } = .ok result t ∧
      result.wrappers.map t.model.qualifiedName = ["post.Copys", "post.Bodys"] ∧
      t.model.HoldsApart ∧ t.model.NoWrapperTypes ∧
      unmarshalElement t.model none letter = .ok v ∧
        rootClass t.model none letter.tag = .ok c ∧ marshalElement t.model v = .ok y ∧
        Kept t.model c letter y ∧ SameOutline letter y := by
  obtain ⟨m, result, t, hm, hr, hnamed, hapart, htypes, hread, hroom⟩ :=
    Pass.exists_run_of_ran? ⟨{}, none, {}⟩ letters (fun _ result t =>
      result.wrappers.map t.model.qualifiedName = ["post.Copys", "post.Bodys"] ∧
      t.model.HoldsApart ∧ t.model.NoWrapperTypes ∧
      (unmarshalElement t.model none letter).toOption.isSome = true ∧
      (rootClass t.model none letter.tag).toOption.any (roomFor t.model letter) = true)
    (by decide +kernel)
  obtain ⟨v, hv⟩ := Option.isSome_iff_exists.mp hread
  have hv := toOption_eq_some.mp hv
  obtain ⟨c, y, hc, hy, -, hkept, hsame⟩ := returned_of_unmarshalElement hapart htypes
    (fun c hc => (bound_of_rootClass hc).1) hv
  rw [hc] at hroom
  exact ⟨m, result, t, v, c, y, hm, hr, hnamed, hapart, htypes, hv, hc, hy, hkept,
    hsame hroom (bound_of_rootClass hc).2⟩

def notedOrders : Value :=
  .object [("package", .text "shop"), ("classes", .list [
    .object [("name", .text "Order"), ("properties", .list [.object [("name", .text "note")]])]])]

/-- An undeclared attribute, and a note with more than text. -/
def annotatedOrder : Xml.Element where
  tag := "Order"
  attributes := [("id", "7")]
  children := [{ tag := "note", attributes := [("lang", "en")], text := "a",
                 children := [{ tag := "b" }] }]

/-- What the model has no room for is no error but disappears. -/
theorem undeclared_attribute_lost : ¬ ∀ (described : Value) (m : Model) (e : Xml.Element)
    (v : Datum), Model.ofValue described = .ok m → m.NoWrapperTypes →
      unmarshalElement m none e = .ok v → ∃ y, marshalElement m v = .ok y ∧
        ∀ name, Assoc.contains name e.attributes → Assoc.contains name y.attributes := by
  intro claim
  have h : ((Model.ofValue notedOrders).toOption.any fun m => m.NoWrapperTypes ∧
      ((unmarshalElement m none annotatedOrder).toOption.any fun v =>
        (marshalElement m v).toOption.any fun y => y.attributes.isEmpty) = true) = true := by
    decide +kernel
  obtain ⟨m, hm, h⟩ := (Option.any_eq_true _ _).mp h
  obtain ⟨htypes, h⟩ := of_decide_eq_true h
  obtain ⟨v, hv, h⟩ := (Option.any_eq_true _ _).mp h
  obtain ⟨y, hy, hnone⟩ := (Option.any_eq_true _ _).mp h
  obtain ⟨z, hz, hall⟩ := claim notedOrders m annotatedOrder v (toOption_eq_some.mp hm) htypes
    (toOption_eq_some.mp hv)
  rw [toOption_eq_some.mp hy] at hz
  cases hz
  have hid := hall "id" rfl
  rw [List.isEmpty_iff.mp hnone] at hid
  cases hid

end Binding
end Enfold
