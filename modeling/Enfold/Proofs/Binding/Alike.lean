import Enfold.Proofs.Binding.Written

/-! # Reading side by side

Two models that differ in the wrapping of some properties read the same children of an element,
property by property, and what they have read is written alike.
-/

namespace Enfold

def Property.typeNames (x : Property) : List (Option String) :=
  x.valueType :: x.substitutes.map Prod.snd

theorem Property.typeFor_mem_typeNames (x : Property) (tag : String) :
    Binding.typeFor x tag ∈ x.typeNames := by
  unfold Binding.typeFor typeNames
  cases hs : Assoc.get? tag x.substitutes with
  | none => exact List.mem_cons_self
  | some name => exact List.mem_cons_of_mem _ (List.mem_map_of_mem (Assoc.mem_of_get? hs))

namespace Binding

variable {m m' : Model} {c c' : ClassId} {x x' : Property} {p q : PropertyId} {fs fs' : Fields}
  {xs xs' : List Datum} {k k' : Child} {ks ks' : List Child}

/-! ### Twins -/

/-- Two objects of a class that are written alike, whatever element they were read under. -/
def Twins (m m' : Model) (c : ClassId) (d d' : Datum) : Prop :=
  ∃ fs fs', d = .object c fs ∧ d' = .object c fs' ∧ Assoc.get? elementField fs = none ∧
    Assoc.get? elementField fs' = none ∧
      ∀ gs gs', SameBeside elementField fs gs → SameBeside elementField fs' gs' → ∀ tag, ∃ e,
        writeObject m c (fieldWriters m gs) tag = .ok e ∧
          writeObject m' c (fieldWriters m' gs') tag = .ok e

/-- A child as two models read it, for any property that takes it. -/
structure ChildrenAlike (m m' : Model) (c : ClassId) (k k' : Child) : Prop where
  element : k'.element = k.element
  read : ∀ p ∈ (m.decl c).properties, accepts (m.prop p) k.element.tag = true →
    ∀ d, m.classOfType? (typeFor (m.prop p) k.element.tag) = some d →
      Agree (Twins m m' d) (k.read d) (k'.read d)

theorem tagOf_put (x : Property) (tag : String) (fs : Fields) :
    tagOf (fieldWriters m (Assoc.put elementField (.text tag) fs)) x = .ok tag := by
  unfold tagOf
  rw [get?_fieldWriters, Assoc.get?_put_self]
  rfl

/-- Twins that stand under an element are written alike. -/
theorem Twins.writtenAlike (h : Twins m m' c (.object c fs) (.object c fs')) (tag : String) :
    WrittenAlike m m' (.object c (Assoc.put elementField (.text tag) fs))
      (.object c (Assoc.put elementField (.text tag) fs')) where
  ne_null := ⟨rfl, rfl⟩
  value x x' _ := by
    obtain ⟨gs, gs', h₁, h₂, -, -, hw⟩ := h
    cases h₁
    cases h₂
    obtain ⟨e, he, he'⟩ := hw _ _ (sameBeside_put elementField (.text tag) fs)
      (sameBeside_put elementField (.text tag) fs') tag
    refine ⟨e, ?_, ?_⟩
    · change (tagOf _ x).bind _ = _
      rw [tagOf_put]
      exact he
    · change (tagOf _ x').bind _ = _
      rw [tagOf_put]
      exact he'

/-! ### Values -/

/-- Two properties that take the same elements for the same types. -/
structure SameContent (x x' : Property) : Prop where
  name : x'.name = x.name
  kind : x'.kind = x.kind
  valueType : x'.valueType = x.valueType
  substitutes : x'.substitutes = x.substitutes

theorem SameContent.refl (x : Property) : SameContent x x := ⟨rfl, rfl, rfl, rfl⟩

theorem SameContent.accepts (h : SameContent x x') (tag : String) :
    accepts x' tag = accepts x tag := by
  unfold Binding.accepts
  rw [h.kind, h.name, h.substitutes]

theorem SameContent.typeFor (h : SameContent x x') (tag : String) :
    typeFor x' tag = typeFor x tag := by
  unfold Binding.typeFor
  rw [h.substitutes, h.valueType]

def SameTypes (m m' : Model) (x : Property) : Prop :=
  ∀ tag, m'.classOfType? (typeFor x tag) = m.classOfType? (typeFor x tag)

theorem mem_walk_of_classOfType? {name : Option String} (h : m.classOfType? name = some c) :
    c ∈ m.walk := by
  obtain ⟨n, -, hf⟩ := Option.bind_eq_some_iff.mp h
  exact List.mem_of_find?_eq_some hf

theorem readValue_alike (hp : p ∈ (m.decl c).properties) (h : SameContent (m.prop p) x')
    (ht : SameTypes m m' (m.prop p)) (hk : ChildrenAlike m m' c k k')
    (ha : accepts (m.prop p) k.element.tag = true) :
    Agree (WrittenAlike m m') (readValue m (m.prop p) k) (readValue m' x' k') := by
  unfold readValue
  rw [h.kind, hk.element, h.typeFor, ht]
  split
  · exact .ok (writtenAlike_element _)
  · cases hc : m.classOfType? (typeFor (m.prop p) k.element.tag) with
    | none =>
      dsimp only
      split
      · exact .ok (writtenAlike_element _)
      · exact .ok (writtenAlike_text _)
    | some c =>
      refine (hk.read p hp ha c hc).bind fun d d' hd => ?_
      obtain ⟨fs, fs', rfl, rfl, hn, hn', hw⟩ := hd
      dsimp only
      rw [Assoc.contains, Assoc.contains, hn, hn']
      exact .ok (Twins.writtenAlike ⟨fs, fs', rfl, rfl, hn, hn', hw⟩ _)

/-! ### Items -/

def HoldAlike (m m' : Model) (x x' : Property) (fs fs' : Fields) : Prop :=
  ∃ xs xs', Instance.Holds x fs xs ∧ Instance.Holds x' fs' xs' ∧
    List.Forall₂ (WrittenAlike m m') xs xs'

theorem readItems_alike (hp : p ∈ (m.decl c).properties) (h : SameContent (m.prop p) x')
    (ht : SameTypes m m' (m.prop p))
    (hx : Instance.wrappedField m c (some (m.prop p).field) = .ok (m.prop p))
    (hx' : Instance.wrappedField m' c' (some x'.field) = .ok x')
    (hk : List.Forall₂ (ChildrenAlike m m' c) ks ks') (hs : HoldAlike m m' (m.prop p) x' fs fs') :
    Agree (fun s s' => HoldAlike m m' (m.prop p) x' s.1 s'.1 ∧
        SameBeside (m.prop p).field fs s.1 ∧ SameBeside x'.field fs' s'.1 ∧
          List.Forall₂ (ChildrenAlike m m' c) s.2 s'.2)
      (readItems m c (m.prop p) fs ks) (readItems m' c' x' fs' ks') := by
  induction hk generalizing fs fs' with
  | nil => exact .ok ⟨hs, .refl _ _, .refl _ _, .nil⟩
  | @cons k k' ks ks' hkk hk ih =>
    rw [readItems, readItems, hkk.element, h.accepts]
    split
    · next ha =>
      refine (readValue_alike hp h ht hkk ha).bind fun v v' hv => ?_
      obtain ⟨xs, xs', hxs, hxs', hxx⟩ := hs
      obtain ⟨gs, hg, hgs, hb⟩ := Instance.append_ok hx hxs v
      obtain ⟨gs', hg', hgs', hb'⟩ := Instance.append_ok hx' hxs' v'
      rw [hg, hg']
      refine (ih ⟨_, _, hgs, hgs', List.rel_append hxx (.cons hv .nil)⟩).mono ?_
      rintro s s' ⟨h₁, h₂, h₃, h₄⟩
      exact ⟨h₁, hb.trans h₂, hb'.trans h₃, h₄⟩
    · exact .ok ⟨hs, .refl _ _, .refl _ _, .cons hkk hk⟩

/-! ### Places -/

/-- A property in a wrapper of its own, with a reference to it. -/
structure Wrapped (m m' : Model) (p q : PropertyId) : Prop where
  ne_attribute : (m.prop p).isAttribute = false
  multiplicity : (m.prop p).multiplicity = .repeated
  content : SameContent (m.prop p) (m'.prop p)
  synthetic : (m'.prop p).synthetic = false
  isAttribute : (m'.prop q).isAttribute = false
  reference : ∃ w, (m'.prop q).reference = some w ∧ (m'.decl w).properties = [p]

/-- A property as it was, or a reference to its wrapper. -/
structure Place (m m' : Model) (p q : PropertyId) : Prop where
  reference : (m.prop p).reference = none
  instantiation : (m.prop p).instantiation = none
  kind : (m.prop p).kind ≠ .mixed
  types : SameTypes m m' (m.prop p)
  kept_or_wrapped : m'.prop q = m.prop p ∨ Wrapped m m' p q

/-- What two objects have in a place is written alike, whatever they have elsewhere. -/
def AlikeAt (m m' : Model) (p q : PropertyId) (fs fs' : Fields) : Prop :=
  ∀ gs gs' parent, Assoc.get? (m.prop p).field gs = Assoc.get? (m.prop p).field fs →
    Assoc.get? (m'.prop q).field gs' = Assoc.get? (m'.prop q).field fs' →
      ∃ e, writeProperty m (fieldWriters m gs) parent p = .ok e ∧
        writeProperty m' (fieldWriters m' gs') parent q = .ok e

theorem AlikeAt.congr {gs gs' : Fields} (h : AlikeAt m m' p q fs fs')
    (hg : Assoc.get? (m.prop p).field gs = Assoc.get? (m.prop p).field fs)
    (hg' : Assoc.get? (m'.prop q).field gs' = Assoc.get? (m'.prop q).field fs') :
    AlikeAt m m' p q gs gs' :=
  fun hs hs' parent h₁ h₂ => h hs hs' parent (h₁.trans hg) (h₂.trans hg')

theorem alikeAt_of_absent (h : Assoc.get? (m.prop p).field fs = none)
    (h' : Assoc.get? (m'.prop q).field fs' = none) : AlikeAt m m' p q fs fs' :=
  fun _ _ parent hg hg' => ⟨parent, writeProperty_of_absent (hg.trans h),
    writeProperty_of_absent (hg'.trans h')⟩

theorem alikeAt_of_attribute (ha : (m.prop p).isAttribute = true) (hx : m'.prop q = m.prop p)
    (s : String) : AlikeAt m m' p q (Assoc.put (m.prop p).field (.text s) fs)
      (Assoc.put (m'.prop q).field (.text s) fs') := by
  intro gs gs' parent hg hg'
  rw [Assoc.get?_put_self] at hg hg'
  refine ⟨_, writeProperty_of_attribute ha hg, ?_⟩
  rw [writeProperty_of_attribute (by rwa [hx]) hg', hx]

theorem alikeAt_of_single {d d' : Datum} (hp : Plain (m.prop p))
    (hs : (m.prop p).multiplicity ≠ .repeated) (hx : m'.prop q = m.prop p)
    (h : WrittenAlike m m' d d') : AlikeAt m m' p q (Assoc.put (m.prop p).field d fs)
      (Assoc.put (m'.prop q).field d' fs') := by
  intro gs gs' parent hg hg'
  rw [Assoc.get?_put_self] at hg hg'
  obtain ⟨e, he, he'⟩ := h.value (m.prop p) (m'.prop q) (by rw [hx])
  refine ⟨addChild parent e, ?_, ?_⟩
  · rw [hp.writeProperty hg h.ne_null.1, if_neg hs, he]
    rfl
  · have hq : Plain (m'.prop q) := hx ▸ hp
    rw [hq.writeProperty hg' h.ne_null.2, if_neg (by rwa [hx]), he']
    rfl

theorem alikeAt_of_repeated (hp : Plain (m.prop p)) (hr : (m.prop p).multiplicity = .repeated)
    (hx : m'.prop q = m.prop p) (h : HoldAlike m m' (m.prop p) (m'.prop q) fs fs') :
    AlikeAt m m' p q fs fs' := by
  intro gs gs' parent hg hg'
  obtain ⟨xs, xs', hxs, hxs', hxx⟩ := h
  rw [writeProperty_of_repeated hp hr (hxs.congr hg).has,
    writeProperty_of_repeated (hx ▸ hp) (by rwa [hx]) (hxs'.congr hg').has]
  exact writeItems_alike hxx (by rw [hx]) parent

theorem alikeAt_of_wrapped {w : ClassId} {values : Fields} (hp : Plain (m.prop p))
    (h : Wrapped m m' p q) (hr : (m'.prop q).reference = some w)
    (hw : (m'.decl w).properties = [p]) (hv : HoldAlike m m' (m.prop p) (m'.prop p) fs values) :
    AlikeAt m m' p q fs (Assoc.put (m'.prop q).field (.object w values) fs') := by
  intro gs gs' parent hg hg'
  rw [Assoc.get?_put_self] at hg'
  obtain ⟨xs, xs', hxs, hxs', hxx⟩ := hv
  rw [writeProperty_of_repeated hp h.multiplicity (hxs.congr hg).has,
    writeProperty_of_wrapper h.isAttribute hr hw h.synthetic (by rw [h.content.kind]; exact hp.kind)
      hg' hxs']
  exact writeItems_alike hxx h.content.name parent

/-! ### One place -/

/-- Where reading a place has led both models, with the same children left. -/
structure StepAlike (m m' : Model) (c : ClassId) (p q : PropertyId) (fs fs' : Fields)
    (s s' : Progress) : Prop where
  alike : AlikeAt m m' p q s.1 s'.1
  beside : SameBeside (m.prop p).field fs s.1
  beside' : SameBeside (m'.prop q).field fs' s'.1
  rest : List.Forall₂ (ChildrenAlike m m' c) s.2 s'.2

theorem readWrapped_singleton {w : ClassId} {text : String} {gs : Fields}
    (hs : (m.prop p).synthetic = false) (hk : (m.prop p).kind ≠ .mixed)
    (he : Instance.ensureContainer m w fs (m.prop p) = .ok gs) :
    readWrapped m w text [p] (fs, ks) = readItems m w (m.prop p) gs ks := by
  rw [readWrapped]
  simp only [hs, hk, he, Bool.false_eq_true, if_false]
  change (readItems m w (m.prop p) gs ks).bind (readWrapped m w text []) = _
  cases readItems m w (m.prop p) gs ks <;> rfl

variable {e : Xml.Element}

theorem readProperty_kept (h : Place m m' p q) (hx : m'.prop q = m.prop p)
    (hmem : p ∈ (m.decl c).properties)
    (hp : Instance.wrappedField m c (some (m.prop p).field) = .ok (m.prop p))
    (hq : Instance.wrappedField m' c (some (m'.prop q).field) = .ok (m'.prop q))
    (ha : Assoc.get? (m.prop p).field fs = none) (ha' : Assoc.get? (m'.prop q).field fs' = none)
    (hk : List.Forall₂ (ChildrenAlike m m' c) ks ks') :
    Agree (StepAlike m m' c p q fs fs') (readProperty m c e (fs, ks) p)
      (readProperty m' c e (fs', ks') q) := by
  have habsent : StepAlike m m' c p q fs fs' (fs, ks) (fs', ks') :=
    ⟨alikeAt_of_absent ha ha', .refl _ _, .refl _ _, hk⟩
  unfold readProperty
  dsimp only
  rw [hx, h.reference]
  split
  · next hattr =>
    cases Assoc.get? (m.prop p).name e.attributes with
    | none => exact .ok habsent
    | some v =>
      exact .ok ⟨hx ▸ alikeAt_of_attribute hattr hx v, sameBeside_put _ _ _,
        hx ▸ sameBeside_put _ _ _, hk⟩
  · next hattr =>
    have hplain : Plain (m.prop p) := ⟨by simpa using hattr, h.reference, h.kind⟩
    dsimp only
    rw [if_neg h.kind, if_neg h.kind]
    split
    · next hr =>
      have hi : (m.prop p).instantiation ≠ some .byCaller := by simp [h.instantiation]
      rw [hx] at hq ha'
      refine (readItems_alike hmem (.refl (m.prop p)) h.types hp hq hk
        ⟨[], [], Or.inr ⟨ha, rfl, hi⟩, Or.inr ⟨ha', rfl, hi⟩, .nil⟩).mono ?_
      rintro s s' ⟨h₁, h₂, h₃, h₄⟩
      exact ⟨alikeAt_of_repeated hplain hr hx (hx ▸ h₁), h₂, hx ▸ h₃, h₄⟩
    · next hr =>
      cases hk with
      | nil => exact .ok habsent
      | @cons k k' ks ks' hkk hk =>
        dsimp only
        rw [hkk.element]
        split
        · next ha =>
          refine (readValue_alike hmem (.refl (m.prop p)) h.types hkk ha).bind fun v v' hv => ?_
          exact .ok ⟨hx ▸ alikeAt_of_single hplain hr hx hv, sameBeside_put _ _ _,
            hx ▸ sameBeside_put _ _ _, hk⟩
        · exact .ok habsent

theorem readProperty_wrapped (h : Place m m' p q) (hw : Wrapped m m' p q)
    (hmem : p ∈ (m.decl c).properties)
    (hp : Instance.wrappedField m c (some (m.prop p).field) = .ok (m.prop p))
    (ha : Assoc.get? (m.prop p).field fs = none)
    (hk : List.Forall₂ (ChildrenAlike m m' c) ks ks') :
    Agree (StepAlike m m' c p q fs fs') (readProperty m c e (fs, ks) p)
      (readProperty m' c e (fs', ks') q) := by
  obtain ⟨w, hr, hlist⟩ := hw.reference
  have hplain : Plain (m.prop p) := ⟨hw.ne_attribute, h.reference, h.kind⟩
  have hkind : (m'.prop p).kind ≠ .mixed := by
    rw [hw.content.kind]
    exact h.kind
  have hq : Instance.wrappedField m' w (some (m'.prop p).field) = .ok (m'.prop p) :=
    Instance.wrappedField_of_mem (by simp [Model.fields, hlist]) (by simp [hlist])
  obtain ⟨gs, hg, hgs⟩ := Instance.ensureContainer_ok hq fun d hd => Instance.get?_fresh hlist hd
  have hread : readProperty m c e (fs, ks) p = readItems m c (m.prop p) fs ks := by
    unfold readProperty
    simp [hw.ne_attribute, h.reference, h.kind, hw.multiplicity]
  have hread' : readProperty m' c e (fs', ks') q = readItems m' w (m'.prop p) gs ks' >>= fun s =>
      .ok (Assoc.put (m'.prop q).field (.object w s.1) fs', s.2) := by
    unfold readProperty
    simp only [hw.isAttribute, hr, hlist, readWrapped_singleton hw.synthetic hkind hg,
      Bool.false_eq_true, if_false]
    rfl
  have hi : (m.prop p).instantiation ≠ some .byCaller := by simp [h.instantiation]
  rw [hread, hread']
  refine (readItems_alike hmem hw.content h.types hp hq hk
    ⟨[], [], Or.inr ⟨ha, rfl, hi⟩, hgs, .nil⟩).bind_right ?_
  rintro s s' ⟨h₁, h₂, -, h₄⟩
  exact ⟨_, rfl, alikeAt_of_wrapped hplain hw hr hlist h₁, h₂, sameBeside_put _ _ _, h₄⟩

/-- The step of reading: both models read what belongs to one place. -/
theorem readProperty_alike (h : Place m m' p q) (hn : (m.fields c).Nodup)
    (hn' : (m'.fields c).Nodup) (hmem : p ∈ (m.decl c).properties)
    (hq : q ∈ (m'.decl c).properties) (ha : Assoc.get? (m.prop p).field fs = none)
    (ha' : Assoc.get? (m'.prop q).field fs' = none)
    (hk : List.Forall₂ (ChildrenAlike m m' c) ks ks') :
    Agree (StepAlike m m' c p q fs fs') (readProperty m c e (fs, ks) p)
      (readProperty m' c e (fs', ks') q) := by
  have hp := Instance.wrappedField_of_mem hn hmem
  rcases h.kept_or_wrapped with hx | hw
  · exact readProperty_kept h hx hmem hp (Instance.wrappedField_of_mem hn' hq) ha ha' hk
  · exact readProperty_wrapped h hw hmem hp ha hk

end Binding
end Enfold
