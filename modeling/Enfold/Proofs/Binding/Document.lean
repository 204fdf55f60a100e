import Enfold.Proofs.Binding.Alike
import Enfold.Proofs.Binding.Taken

/-! # Documents side by side

Two models of which one has wrapped some properties of the other and dropped some more read an
element of any depth with the same outcome, and write what they have read into the same element,
as long as nothing in it belongs to a property that was dropped.
-/

namespace Enfold

def Model.kept (m : Model) (dropped : List PropertyId) (c : ClassId) : List PropertyId :=
  (m.decl c).properties.filter (· ∉ dropped)

/-- The second model lacks some properties of the first and has others in wrappers. -/
structure Model.RewrappedBut (dropped : List PropertyId) (m m' : Model) : Prop where
  isWrapper : ∀ c ∈ m.walk, (m.decl c).isWrapper = false ∧ (m'.decl c).isWrapper = false
  qualifiedName : ∀ c ∈ m.walk, m'.qualifiedName c = m.qualifiedName c
  boundElement : ∀ c ∈ m.walk, Binding.boundElement m' c = Binding.boundElement m c
  places : ∀ c ∈ m.walk,
    List.Forall₂ (Binding.Place m m') (m.kept dropped c) (m'.decl c).properties
  plain : ∀ c ∈ m.walk, ∀ p ∈ (m.decl c).properties, p ∈ dropped → Binding.Plain (m.prop p)
  nodup : ∀ c ∈ m.walk, (m.fields c).Nodup ∧ (m'.fields c).Nodup
  reserved : ∀ c ∈ m.walk, ∀ f, f = textField ∨ f = elementField → f ∉ m.fields c ∧ f ∉ m'.fields c

abbrev Model.Rewrapped (m m' : Model) : Prop := Model.RewrappedBut [] m m'

namespace Binding

variable {m m' : Model} {c : ClassId} {l l' dropped : List PropertyId} {s s' : Progress}
  {ks ks' : List Child} {gs gs' : Fields} {e : Xml.Element} {text : String}

/-! ### The places of a class -/

/-- How far both models have come with the places of a class, with the same children left. -/
structure PlacesAlike (m m' : Model) (c : ClassId) (l l' : List PropertyId) (s s' : Progress) :
    Prop where
  alike : List.Forall₂ (fun p q => AlikeAt m m' p q s.1 s'.1) l l'
  absent : ∀ f, f ∉ l.map (fun p => (m.prop p).field) → Assoc.get? f s.1 = none
  absent' : ∀ f, f ∉ l'.map (fun q => (m'.prop q).field) → Assoc.get? f s'.1 = none
  rest : List.Forall₂ (ChildrenAlike m m' c) s.2 s'.2

theorem PlacesAlike.append {t t' : Progress} {p q : PropertyId} (h : PlacesAlike m m' c l l' s s')
    (ht : StepAlike m m' c p q s.1 s'.1 t t')
    (hp : (m.prop p).field ∉ l.map fun p => (m.prop p).field)
    (hq : (m'.prop q).field ∉ l'.map fun q => (m'.prop q).field) :
    PlacesAlike m m' c (l ++ [p]) (l' ++ [q]) t t' where
  alike := by
    refine List.rel_append (List.forall₂_iff_zip.mpr ⟨h.alike.length_eq, fun {a b} hab => ?_⟩)
      (.cons ht.alike .nil)
    obtain ⟨ha, hb⟩ := List.of_mem_zip hab
    refine (List.forall₂_zip h.alike hab).congr (ht.beside _ ?_) (ht.beside' _ ?_)
    · exact fun he => hp (he ▸ List.mem_map_of_mem ha)
    · exact fun he => hq (he ▸ List.mem_map_of_mem hb)
  absent f hf := by
    rw [List.map_append, List.mem_append, not_or] at hf
    rw [ht.beside f (by simpa using hf.2), h.absent f hf.1]
  absent' f hf := by
    rw [List.map_append, List.mem_append, not_or] at hf
    rw [ht.beside' f (by simpa using hf.2), h.absent' f hf.1]
  rest := ht.rest

theorem field_notMem_of_nodup {l₁ l₂ : List PropertyId} {p : PropertyId}
    (hn : (l.map fun p => (m.prop p).field).Nodup) (hl : l = l₁ ++ p :: l₂) :
    (m.prop p).field ∉ l₁.map fun p => (m.prop p).field := by
  rw [hl, List.map_append, List.map_cons] at hn
  exact fun h => (List.nodup_append.mp hn).2.2 _ h _ List.mem_cons_self rfl

theorem mem_fields_of_kept {f : String}
    (h : f ∈ (m.kept dropped c).map fun p => (m.prop p).field) : f ∈ m.fields c :=
  (List.filter_sublist.map _).subset h

theorem field_notMem_kept {p : PropertyId} (hn : (m.fields c).Nodup)
    (hp : p ∈ (m.decl c).properties) (hd : p ∈ dropped) :
    (m.prop p).field ∉ (m.kept dropped c).map fun p => (m.prop p).field := by
  intro h
  obtain ⟨q, hq, he⟩ := List.mem_map.mp h
  obtain ⟨hq, hqd⟩ := List.mem_filter.mp hq
  obtain rfl := List.inj_on_of_nodup_map hn hq hp he
  simp [hd] at hqd

/-- No child of an element, nor its text, belongs to a property that was dropped. -/
def Passes (m : Model) (dropped : List PropertyId) (c : ClassId) (text : String)
    (ks : List Child) : Prop :=
  ∀ p ∈ (m.decl c).properties, p ∈ dropped →
    (∀ k ∈ ks, accepts (m.prop p) k.element.tag = false) ∧ (ks ≠ [] ∨ Text.trim text = "")

/-- The run of reading: both models read all places of a class. -/
theorem readProperties_alike (h : m.RewrappedBut dropped m') (hc : c ∈ m.walk)
    (hpass : Passes m dropped c e.text ks) (hk : List.Forall₂ (ChildrenAlike m m' c) ks ks') :
    Agree (PlacesAlike m m' c (m.kept dropped c) (m'.decl c).properties)
      ((m.decl c).properties.foldlM (readProperty m c e) ([], ks))
      ((m'.decl c).properties.foldlM (readProperty m' c e) ([], ks')) := by
  obtain ⟨hn, hn'⟩ := h.nodup c hc
  have hsub : (m.kept dropped c).Sublist (m.decl c).properties := List.filter_sublist
  have hskip : (m.decl c).properties.foldlM (readProperty m c e) ([], ks) =
      (m.kept dropped c).foldlM (readProperty m c e) ([], ks) := by
    refine foldlM_readProperty_filter fun p hp hd => ?_
    have hd : p ∈ dropped := by simpa using hd
    exact ⟨h.plain c hc p hp hd, (hpass p hp hd).1⟩
  rw [hskip]
  refine Agree.foldlM (PlacesAlike m m' c) ?_ (h.places c hc)
    ⟨.nil, fun _ _ => rfl, fun _ _ => rfl, hk⟩
  intro l₁ p l₂ l₁' q l₂' s s' hl hl' hpl hs
  have hp := field_notMem_of_nodup (hn.sublist (hsub.map _)) hl
  have hq := field_notMem_of_nodup hn' hl'
  have hmem : p ∈ (m.decl c).properties := hsub.subset (by rw [hl]; simp)
  refine (readProperty_alike hpl hn hn' hmem (by simp [hl']) (hs.absent _ hp) (hs.absent' _ hq)
    hs.rest).mono ?_
  exact fun t t' ht => hs.append ht hp hq

/-! ### Objects -/

theorem PlacesAlike.twins (h : m.RewrappedBut dropped m') (hc : c ∈ m.walk)
    (hs : PlacesAlike m m' c (m.kept dropped c) (m'.decl c).properties s s')
    (hg : SameBeside textField s.1 gs) (hg' : SameBeside textField s'.1 gs')
    (ht : Assoc.get? textField gs' = Assoc.get? textField gs)
    (htext : ∀ d, Assoc.get? textField gs = some d → ∃ str, d = .text str) :
    Twins m m' c (.object c gs) (.object c gs') := by
  have hne : elementField ≠ textField := by decide
  obtain ⟨hre, hre'⟩ := h.reserved c hc elementField (Or.inr rfl)
  obtain ⟨hrt, hrt'⟩ := h.reserved c hc textField (Or.inl rfl)
  refine ⟨gs, gs', rfl, rfl, ?_, ?_, fun ks ks' hk hk' tag => ?_⟩
  · rw [hg _ hne, hs.absent _ fun hm => hre (mem_fields_of_kept hm)]
  · rw [hg' _ hne, hs.absent' _ hre']
  have hplaces : List.Forall₂ (fun p q => ∀ parent, ∃ e,
      writeProperty m (fieldWriters m ks) parent p = .ok e ∧
        writeProperty m' (fieldWriters m' ks') parent q = .ok e)
      (m.kept dropped c) (m'.decl c).properties := by
    refine List.forall₂_iff_zip.mpr ⟨hs.alike.length_eq, fun {p q} hpq parent => ?_⟩
    obtain ⟨hp, hq⟩ := List.of_mem_zip hpq
    have hf : (m.prop p).field ∈ m.fields c := List.mem_map_of_mem (List.mem_of_mem_filter hp)
    have hf' : (m'.prop q).field ∈ m'.fields c := List.mem_map_of_mem hq
    refine List.forall₂_zip hs.alike hpq ks ks' parent ?_ ?_
    · rw [hk _ fun e => hre (e ▸ hf), hg _ fun e => hrt (e ▸ hf)]
    · rw [hk' _ fun e => hre' (e ▸ hf'), hg' _ fun e => hrt' (e ▸ hf')]
  -- A property that was dropped has no value and writes nothing.
  have hskip : ∀ p ∈ (m.decl c).properties, decide (p ∉ dropped) = false →
      ∀ parent, writeProperty m (fieldWriters m ks) parent p = .ok parent := by
    intro p hp hd parent
    have hf : (m.prop p).field ∈ m.fields c := List.mem_map_of_mem hp
    refine writeProperty_of_absent ?_
    rw [hk _ fun e => hre (e ▸ hf), hg _ fun e => hrt (e ▸ hf)]
    exact hs.absent _ (field_notMem_kept (h.nodup c hc).1 hp (by simpa using hd))
  unfold writeObject
  rw [get?_fieldWriters, get?_fieldWriters, hk _ hne.symm, hk' _ hne.symm, ht]
  simp only [← foldlM_filter_of_skip hskip]
  cases hd : Assoc.get? textField gs with
  | none => exact foldlM_eq_ok_of_forall₂ hplaces _
  | some d =>
    obtain ⟨str, rfl⟩ := htext d hd
    exact foldlM_eq_ok_of_forall₂ hplaces _

theorem Place.isAttribute_eq {p q : PropertyId} (h : Place m m' p q) :
    (m'.prop q).isAttribute = (m.prop p).isAttribute := by
  rcases h.kept_or_wrapped with hx | hw
  · rw [hx]
  · rw [hw.ne_attribute, hw.isAttribute]

theorem holdsText_eq (h : List.Forall₂ (fun p q => (m'.prop q).isAttribute = (m.prop p).isAttribute)
    (m.decl c).properties (m'.decl c).properties) : holdsText m' c = holdsText m c := by
  unfold holdsText
  generalize (m.decl c).properties = l, (m'.decl c).properties = l' at h ⊢
  induction h with
  | nil => rfl
  | cons hpq _ ih => rw [List.all_cons, List.all_cons, ih, hpq]

theorem isText_eq (h : m.RewrappedBut dropped m') (hc : c ∈ m.walk)
    (hpass : Passes m dropped c text ks) :
    (ks.isEmpty && holdsText m' c && Text.trim text ≠ "") =
      (ks.isEmpty && holdsText m c && Text.trim text ≠ "") := by
  by_cases hd : ∃ p ∈ (m.decl c).properties, p ∈ dropped
  · obtain ⟨p, hp, hd⟩ := hd
    rcases (hpass p hp hd).2 with hks | ht
    · rw [List.isEmpty_eq_false_iff.mpr hks]
      rfl
    · simp [ht]
  · have hall : m.kept dropped c = (m.decl c).properties :=
      List.filter_eq_self.mpr fun p hp => by simpa using fun hpd => hd ⟨p, hp, hpd⟩
    have hplaces := hall ▸ h.places c hc
    rw [holdsText_eq (hplaces.imp fun _ _ hp => hp.isAttribute_eq)]

/-- Both models read an element as twins, or reject it with the same error. -/
theorem readObject_alike (h : m.RewrappedBut dropped m') (hc : c ∈ m.walk)
    (hpass : Passes m dropped c e.text ks) (hk : List.Forall₂ (ChildrenAlike m m' c) ks ks') :
    Agree (Twins m m' c) (readObject m c e ks) (readObject m' c e ks') := by
  obtain ⟨hw, hw'⟩ := h.isWrapper c hc
  have hempty : ks'.isEmpty = ks.isEmpty := by
    cases hk <;> rfl
  unfold readObject
  rw [Instance.fresh_of_not_wrapper hw, Instance.fresh_of_not_wrapper hw', hempty,
    isText_eq h hc hpass, h.qualifiedName c hc, hw, hw']
  refine (readProperties_alike h hc hpass hk).bind ?_
  rintro ⟨fs, rest⟩ ⟨fs', rest'⟩ hs
  have hrest : List.Forall₂ (ChildrenAlike m m' c) rest rest' := hs.rest
  cases hrest with
  | nil =>
    dsimp only
    split
    · refine .ok (hs.twins h hc (sameBeside_put _ _ _) (sameBeside_put _ _ _) ?_ ?_)
      · rw [Assoc.get?_put_self, Assoc.get?_put_self]
      · intro d hd
        rw [Assoc.get?_put_self] at hd
        exact ⟨_, (Option.some.inj hd).symm⟩
    · obtain ⟨hrt, hrt'⟩ := h.reserved c hc textField (Or.inl rfl)
      have ht : Assoc.get? textField fs = none := hs.absent _ fun hm => hrt (mem_fields_of_kept hm)
      have ht' : Assoc.get? textField fs' = none := hs.absent' _ hrt'
      exact .ok (hs.twins h hc (.refl _ _) (.refl _ _) (ht'.trans ht.symm) (by simp [ht]))
  | cons hkk _ =>
    dsimp only
    rw [hkk.element]
    exact .error _

/-! ### Elements -/

mutual

/-- Nothing in an element, at any depth, belongs to a property that was dropped. -/
def spares (m : Model) (dropped : List PropertyId) : Xml.Element → ClassId → Bool
  | ⟨_, _, text, _, children⟩, c =>
    ((m.decl c).properties.all fun p => p ∉ dropped ||
      (children.all fun k => !accepts (m.prop p) k.tag) &&
        (!children.isEmpty || Text.trim text = "")) &&
    sparesAll m dropped c children

def sparesAll (m : Model) (dropped : List PropertyId) (c : ClassId) : List Xml.Element → Bool
  | [] => true
  | e :: r =>
    ((m.decl c).properties.all fun p => !accepts (m.prop p) e.tag ||
      match m.classOfType? (typeFor (m.prop p) e.tag) with
      | none => true
      | some d => spares m dropped e d) && sparesAll m dropped c r

end

theorem element_childReaders (es : List Xml.Element) :
    (childReaders m es).map Child.element = es := by
  induction es with
  | nil => rfl
  | cons e es ih => rw [childReaders, List.map_cons, ih]

theorem passes_of_spares {tag text tail : String} {attributes : Assoc String String}
    {children : List Xml.Element}
    (h : spares m dropped ⟨tag, attributes, text, tail, children⟩ c = true) :
    Passes m dropped c text (childReaders m children) ∧ sparesAll m dropped c children = true := by
  rw [spares, Bool.and_eq_true, List.all_eq_true] at h
  refine ⟨fun p hp hd => ?_, h.2⟩
  have hp := h.1 p hp
  simp only [hd, not_true_eq_false, decide_false, Bool.false_or, Bool.and_eq_true,
    List.all_eq_true, Bool.not_eq_true', Bool.or_eq_true, decide_eq_true_eq] at hp
  refine ⟨fun k hk => hp.1 k.element ?_, hp.2.imp_left fun he hn => ?_⟩
  · exact element_childReaders (m := m) children ▸ List.mem_map_of_mem hk
  · have := congrArg (List.map Child.element) hn
    rw [element_childReaders] at this
    simp [this] at he

mutual

theorem reader_alike (h : m.RewrappedBut dropped m') : ∀ (e : Xml.Element) {c : ClassId},
    c ∈ m.walk → spares m dropped e c = true → Agree (Twins m m' c) (reader m e c) (reader m' e c)
  | ⟨_, _, _, _, children⟩, _, hc, hs => by
    obtain ⟨hpass, hall⟩ := passes_of_spares hs
    exact readObject_alike h hc hpass (childReaders_alike h children hall)

theorem childReaders_alike (h : m.RewrappedBut dropped m') : ∀ (es : List Xml.Element)
    {c : ClassId}, sparesAll m dropped c es = true →
      List.Forall₂ (ChildrenAlike m m' c) (childReaders m es) (childReaders m' es)
  | [], _, _ => .nil
  | e :: r, c, hs => by
    rw [sparesAll, Bool.and_eq_true, List.all_eq_true] at hs
    refine .cons ⟨rfl, fun p hp ha d hd => ?_⟩ (childReaders_alike h r hs.2)
    have hspared := hs.1 p hp
    have ha : accepts (m.prop p) e.tag = true := ha
    have hd : m.classOfType? (typeFor (m.prop p) e.tag) = some d := hd
    rw [ha, hd] at hspared
    exact reader_alike h e (mem_walk_of_classOfType? hd) hspared

end

mutual

theorem spares_nil : ∀ (e : Xml.Element) (c : ClassId), spares m [] e c = true
  | ⟨_, _, _, _, children⟩, c => by
    rw [spares, sparesAll_nil children c]
    simp

theorem sparesAll_nil : ∀ (es : List Xml.Element) (c : ClassId), sparesAll m [] c es = true
  | [], _ => rfl
  | e :: r, c => by
    rw [sparesAll, sparesAll_nil r c, Bool.and_true, List.all_eq_true]
    intro p _
    split
    · exact Bool.or_true _
    · next d _ => rw [spares_nil e d, Bool.or_true]

end

theorem mem_walk_of_rootClass {asked : Option String} {tag : String}
    (h : rootClass m asked tag = .ok c) : c ∈ m.walk := by
  unfold rootClass at h
  split at h
  · split at h
    · next hf =>
      cases h
      exact List.mem_of_find?_eq_some hf
    · cases h
  · split at h
    · next hf =>
      cases h
      exact List.mem_of_find?_eq_some hf
    · cases h

/-- Both models make the same of an element without dropped properties. -/
theorem unmarshalElement_alike_of_spares (h : m.RewrappedBut dropped m') {asked : Option String}
    (hroot : rootClass m' asked e.tag = rootClass m asked e.tag)
    (hs : ∀ c, rootClass m asked e.tag = .ok c → spares m dropped e c = true) :
    Agree (fun d d' => ∃ x, marshalElement m d = .ok x ∧ marshalElement m' d' = .ok x)
      (unmarshalElement m asked e) (unmarshalElement m' asked e) := by
  unfold unmarshalElement
  rw [hroot]
  cases hc : rootClass m asked e.tag with
  | error err => exact .error err
  | ok c =>
    have hwalk := mem_walk_of_rootClass hc
    refine (reader_alike h e hwalk (hs c hc)).mono ?_
    rintro d d' ⟨fs, fs', rfl, rfl, -, -, hw⟩
    obtain ⟨x, hx, hx'⟩ := hw fs fs' (.refl _ _) (.refl _ _) (boundElement m c)
    refine ⟨x, hx, ?_⟩
    rw [marshalElement, h.boundElement c hwalk]
    exact hx'

theorem unmarshalElement_alike (h : m.Rewrapped m') {asked : Option String}
    (hroot : rootClass m' asked e.tag = rootClass m asked e.tag) :
    Agree (fun d d' => ∃ x, marshalElement m d = .ok x ∧ marshalElement m' d' = .ok x)
      (unmarshalElement m asked e) (unmarshalElement m' asked e) :=
  unmarshalElement_alike_of_spares h hroot fun c _ => spares_nil e c

end Binding
end Enfold
