import Enfold.Proofs.Binding.Restored

/-! # Mixed content and the text around it

A wrapper keeps mixed content in two containers: one for the children, and one for the runs of text
around them, of which there is one more. When both are written, each run of text but the first
stands again behind the child that it was read behind.
-/

namespace Enfold.Binding

variable {m : Model} {c w : ClassId} {x : Property} {p q : PropertyId} {fs gs hs : Fields}
  {vs : List Datum} {v d : Datum} {e y z parent : Xml.Element} {es ys zs : List Xml.Element}
  {s t : Progress} {l : List PropertyId} {ks : List Child} {ws : List ValueWriter}
  {text tag f : String} {tails : List String}

/-! ### Tags stay -/

theorem writeItems_tag (h : writeItems x parent ws = .ok y) : y.tag = parent.tag := by
  refine foldlM_invariant (P := fun z => z.tag = parent.tag) (fun w _ s t hs h => ?_) rfl h
  obtain ⟨z, -, rfl⟩ := exceptMap_eq_ok.mp h
  exact hs

theorem writeMixedItems_tag (h : writeMixedItems x parent ws vs = .ok y) :
    y.tag = parent.tag := by
  induction ws generalizing parent vs with
  | nil =>
    cases h
    rfl
  | cons w ws ih =>
    cases vs with
    | nil =>
      obtain ⟨z, -, h⟩ := exceptBind_eq_ok.mp h
      exact (ih h).trans rfl
    | cons v vs =>
      obtain ⟨z, -, h⟩ := exceptBind_eq_ok.mp h
      obtain ⟨run, -, h⟩ := exceptBind_eq_ok.mp h
      exact (ih h).trans rfl

theorem writeMixed_tag {fields : FieldWriters} (h : writeMixed fields x parent = .ok y) :
    y.tag = parent.tag := by
  obtain ⟨runs, -, h⟩ := exceptBind_eq_ok.mp h
  obtain ⟨items, -, h⟩ := exceptBind_eq_ok.mp h
  cases runs with
  | nil => exact writeMixedItems_tag h
  | cons run runs =>
    obtain ⟨text, -, h⟩ := exceptBind_eq_ok.mp h
    exact (writeMixedItems_tag h).trans rfl

theorem inline_tag (h : (writer m v).inline parent = .ok y) : y.tag = parent.tag := by
  cases v with
  | object c fs =>
    refine foldlM_invariant (P := fun z => z.tag = parent.tag) (fun q _ s t hs h => ?_) rfl h
    unfold writeWrappedProperty at h
    dsimp only at h
    split at h
    · cases h
      exact hs
    · split at h
      · exact (writeMixed_tag h).trans hs
      · obtain ⟨items, -, h⟩ := exceptBind_eq_ok.mp h
        exact (writeItems_tag h).trans hs
  | _ => cases h

theorem writeProperty_tag (h : writeProperty m (fieldWriters m fs) parent q = .ok y) :
    y.tag = parent.tag := by
  unfold writeProperty at h
  dsimp only at h
  rw [get?_fieldWriters] at h
  cases hv : Assoc.get? (m.prop q).field fs with
  | none =>
    rw [hv] at h
    cases h
    rfl
  | some v =>
    rw [hv] at h
    dsimp only [Option.map_some] at h
    split at h
    · cases h
      rfl
    · split at h
      · obtain ⟨s, -, h⟩ := exceptBind_eq_ok.mp h
        cases h
        rfl
      · split at h
        · exact inline_tag h
        · split at h
          · exact writeMixed_tag h
          · split at h
            · obtain ⟨items, -, h⟩ := exceptBind_eq_ok.mp h
              exact writeItems_tag h
            · obtain ⟨z, -, h⟩ := exceptBind_eq_ok.mp h
              cases h
              rfl

theorem writeObject_ok (h : writeObject m c (fieldWriters m fs) tag = .ok y) : ∃ text,
    (Assoc.get? textField fs = none → text = "") ∧
      (m.decl c).properties.foldlM (writeProperty m (fieldWriters m fs)) { tag, text } = .ok y := by
  unfold writeObject at h
  rw [get?_fieldWriters] at h
  cases hv : Assoc.get? textField fs with
  | none =>
    rw [hv] at h
    exact ⟨"", fun _ => rfl, h⟩
  | some v =>
    rw [hv] at h
    obtain ⟨text, -, h⟩ := exceptBind_eq_ok.mp h
    refine ⟨text, ?_, h⟩
    rintro ⟨⟩

theorem writeObject_tag (h : writeObject m c (fieldWriters m fs) tag = .ok y) : y.tag = tag := by
  obtain ⟨text, -, h⟩ := writeObject_ok h
  exact foldlM_invariant (P := fun z : Xml.Element => z.tag = tag)
    (fun q _ s t hs h => (writeProperty_tag h).trans hs) rfl h

/-! ### Children -/

theorem readValue_of_untyped {k : Child} (hx : x.kind = .mixed)
    (htype : m.classOfType? (typeFor x k.element.tag) = none) (h : readValue m x k = .ok v) :
    v = .element k.element := by
  have hany : x.kind ≠ .any := by simp [hx]
  rw [readValue, if_neg hany, htype] at h
  dsimp only at h
  rw [if_pos hx] at h
  cases h
  rfl

/-- No object that is read of a child remembers the tag of another element. -/
def Untagged (m : Model) (k : Child) : Prop :=
  ∀ d ∈ m.walk, ∀ v, k.read d = .ok v → ∃ fs, v = .object d fs ∧
    Assoc.get? elementField fs = none

/-- An element of the tag of its child, or without a type the child itself. -/
def MixedItem (m : Model) (x : Property) (k z : Xml.Element) : Prop :=
  z.tag = k.tag ∧ (m.classOfType? (typeFor x k.tag) = none → z = { k with tail := "" })

theorem mixedItem_ok {k : Child} (hx : x.kind = .mixed) (hk : Untagged m k)
    (h : readValue m x k = .ok v) (hz : (writer m v).value x = .ok z) :
    MixedItem m x k.element z := by
  cases htype : m.classOfType? (typeFor x k.element.tag) with
  | none =>
    obtain rfl := readValue_of_untyped hx htype h
    cases hz
    exact ⟨rfl, fun _ => rfl⟩
  | some d =>
    have hany : x.kind ≠ .any := by simp [hx]
    rw [readValue, if_neg hany, htype] at h
    obtain ⟨v', hread, h⟩ := exceptBind_eq_ok.mp h
    obtain ⟨fs, rfl, hnone⟩ := hk d (mem_walk_of_classOfType? htype) v' hread
    simp only [Assoc.contains, hnone] at h
    cases h
    change (tagOf _ x).bind _ = _ at hz
    rw [tagOf_put] at hz
    exact ⟨writeObject_tag hz, fun hn => by simp [htype] at hn⟩

theorem mixedItems_ok (hx : x.kind = .mixed) (hk : ∀ k ∈ ks, Untagged m k)
    (h : ReadAs m x ks vs) (hz : WrittenAs m x vs zs) :
    List.Forall₂ (MixedItem m x) (ks.map Child.element) zs := by
  induction h generalizing zs with
  | nil =>
    cases hz
    exact .nil
  | cons hv _ ih =>
    obtain - | ⟨hz, hzs⟩ := hz
    exact .cons (mixedItem_ok hx (hk _ List.mem_cons_self) hv hz)
      (ih (fun k hks => hk k (List.mem_cons_of_mem _ hks)) hzs)

/-- An element with the tag and the tail of its child, which is the same without a type. -/
structure MixedChild (m : Model) (x : Property) (k y : Xml.Element) : Prop where
  tag : y.tag = k.tag
  tail : y.tail = k.tail
  whole : m.classOfType? (typeFor x k.tag) = none → y = k

theorem mixedChildren_of_tails (h : List.Forall₂ (MixedItem m x) es zs) :
    List.Forall₂ (MixedChild m x) es (withTails zs (es.map Xml.Element.tail)) := by
  induction h with
  | nil => exact .nil
  | @cons k z _ _ hz _ ih =>
    refine .cons ⟨hz.1, rfl, fun hn => ?_⟩ ih
    rw [hz.2 hn]
    cases k
    rfl

/-! ### Owners -/

/-- One property refers to a wrapper of mixed content, and all others are attributes. -/
structure HoldsMixed (m : Model) (c w : ClassId) (q p : PropertyId) : Prop where
  properties : ∃ l l', (m.decl c).properties = l ++ q :: l' ∧ ∀ x ∈ l ++ l',
    (m.prop x).isAttribute = true ∧ (m.prop x).field ≠ (m.prop q).field
  isAttribute : (m.prop q).isAttribute = false
  reference : (m.prop q).reference = some w
  items : HoldsItems m w p
  kind : (m.prop p).kind = .mixed
  field : (m.prop p).field ≠ textRunsName

theorem readAttributes_ok (hl : ∀ q ∈ l, (m.prop q).isAttribute = true ∧ (m.prop q).field ≠ f)
    (h : l.foldlM (readProperty m c e) s = .ok t) :
    t.2 = s.2 ∧ Assoc.get? f t.1 = Assoc.get? f s.1 := by
  refine foldlM_invariant (P := fun u : Progress => u.2 = s.2 ∧ Assoc.get? f u.1 = _)
    (fun q hq u u' hu h => ?_) ⟨rfl, rfl⟩ h
  obtain ⟨ha, hf⟩ := hl q hq
  obtain ⟨fs, ks⟩ := u
  unfold readProperty at h
  dsimp only at h
  rw [if_pos ha] at h
  split at h <;> cases h
  · exact ⟨hu.1, (Assoc.get?_put_of_ne hf _ _).trans hu.2⟩
  · exact hu

theorem writeAttributes_ok {fields : FieldWriters}
    (hl : ∀ q ∈ l, (m.prop q).isAttribute = true)
    (h : l.foldlM (writeProperty m fields) parent = .ok y) :
    y.tag = parent.tag ∧ y.text = parent.text ∧ y.children = parent.children := by
  refine foldlM_invariant (P := fun z : Xml.Element =>
    z.tag = parent.tag ∧ z.text = parent.text ∧ z.children = parent.children)
    (fun q hq u u' hu h => ?_) ⟨rfl, rfl, rfl⟩ h
  unfold writeProperty at h
  dsimp only at h
  split at h
  · cases h
    exact hu
  · split at h
    · cases h
      exact hu
    · rw [if_pos (hl q hq)] at h
      obtain ⟨s, -, h⟩ := exceptBind_eq_ok.mp h
      cases h
      exact hu

theorem mixed_of_readObject (hm : HoldsMixed m c w q p)
    (h : readObject m c e ks = .ok v) : ∃ fs hs vs, v = .object c fs ∧
      (∀ f, f ∉ m.fields c → Assoc.get? f fs = none) ∧
      Assoc.get? (m.prop q).field fs = some (.object w hs) ∧
      Instance.Contains (m.prop p).field hs vs ∧ ReadAs m (m.prop p) ks vs ∧
      HoldsRuns hs (e.text :: ks.map fun k => k.element.tail) := by
  obtain ⟨l, l', hprops, hl⟩ := hm.properties
  obtain ⟨t, us, hrun, rfl, hus, -⟩ := readObject_ok h
  have hnotext : holdsText m c = false := by
    simp [holdsText, hprops, hm.isAttribute]
  obtain rfl : us = t.1 := hus.resolve_right fun ⟨ht, _⟩ => by simp [hnotext] at ht
  refine ⟨t.1, ?_⟩
  have habsent := fun f hf => get?_of_readProperties (f := f) hf hrun
  rw [hprops, List.foldlM_append] at hrun
  obtain ⟨u, hu, hrun⟩ := exceptBind_eq_ok.mp hrun
  rw [List.foldlM_cons] at hrun
  obtain ⟨u', hu', hrun⟩ := exceptBind_eq_ok.mp hrun
  have hbefore := readAttributes_ok (fun x hx => hl x (List.mem_append_left _ hx)) hu
  have hafter := readAttributes_ok (fun x hx => hl x (List.mem_append_right _ hx)) hrun
  obtain ⟨z, hz, rfl⟩ := readProperty_of_reference hm.isAttribute hm.reference hu'
  rw [hbefore.1, readWrapped_of_mixed hm.items hm.kind] at hz
  obtain ⟨-, vs, hvs, hread, hruns⟩ := readMixed_of_wrapper hm.items hm.kind hm.field hz
  refine ⟨z.1, vs, rfl, habsent, ?_, hvs, hread, hruns⟩
  rw [hafter.2, Assoc.get?_put_self]

theorem mixed_of_writeObject (hm : HoldsMixed m c w q p)
    (htext : Assoc.get? textField gs = none)
    (hq : Assoc.get? (m.prop q).field gs = some (.object w hs))
    (hs' : Instance.Contains (m.prop p).field hs vs) (hr : HoldsRuns hs (text :: tails))
    (h : writeObject m c (fieldWriters m gs) tag = .ok y) : ∃ zs, WrittenAs m (m.prop p) vs zs ∧
      y.tag = tag ∧ y.text = text ∧ y.children = withTails zs tails := by
  obtain ⟨l, l', hprops, hl⟩ := hm.properties
  obtain ⟨_, hempty, h⟩ := writeObject_ok h
  obtain rfl := hempty htext
  rw [hprops, List.foldlM_append] at h
  obtain ⟨y₁, h₁, h⟩ := exceptBind_eq_ok.mp h
  rw [List.foldlM_cons] at h
  obtain ⟨y₂, h₂, h⟩ := exceptBind_eq_ok.mp h
  obtain ⟨htag₁, htext₁, hchildren₁⟩ :=
    writeAttributes_ok (fun x hx => (hl x (List.mem_append_left _ hx)).1) h₁
  obtain ⟨htag, htext, hchildren⟩ :=
    writeAttributes_ok (fun x hx => (hl x (List.mem_append_right _ hx)).1) h
  rw [writeProperty_of_reference hm.isAttribute (by rw [hm.reference]; rfl) hq,
    writeWrapped_of_mixed hm.items hm.kind] at h₂
  obtain ⟨zs, hzs, rfl⟩ := (writeMixed_eq_ok hs'.has hr).mp h₂
  refine ⟨zs, hzs, htag.trans htag₁, htext.trans ?_, hchildren.trans ?_⟩
  · simp [addChildren, htext₁]
  · simp [addChildren, hchildren₁]

/-! ### Elements -/

theorem childReaders_untagged (hm : ∀ c ∈ m.walk, elementField ∉ m.fields c)
    (es : List Xml.Element) : ∀ k ∈ childReaders m es, Untagged m k := by
  induction es with
  | nil =>
    intro k hk
    cases hk
  | cons e es ih =>
    intro k hk
    rcases List.mem_cons.mp hk with rfl | hk
    · intro d hd v hv
      obtain ⟨fs, rfl, hfs⟩ := object_of_reader hv
      exact ⟨fs, rfl, hfs _ (hm d hd) (by decide)⟩
    · exact ih k hk

/-- An item for each child, with the runs of text around them. -/
structure KeepsMixed (m : Model) (x : Property) (hs : Fields) (e : Xml.Element) : Prop where
  items : ∃ vs, Instance.Contains x.field hs vs ∧ vs.length = e.children.length ∧
    List.Forall₂ (fun k v => m.classOfType? (typeFor x k.tag) = none → v = Datum.element k)
      e.children vs
  runs : Instance.Contains textRunsName hs
    ((e.text :: e.children.map Xml.Element.tail).map Datum.text)

structure MixedRestored (m : Model) (x : Property) (e y : Xml.Element) : Prop where
  text : y.text = e.text
  children : List.Forall₂ (MixedChild m x) e.children y.children

/-- Mixed content comes back if its object can be written at all. -/
theorem mixed_of_reader (hm : HoldsMixed m c w q p) (hc : c ∈ m.walk)
    (hfields : ∀ c ∈ m.walk, textField ∉ m.fields c ∧ elementField ∉ m.fields c)
    (h : reader m e c = .ok v) : ∃ fs hs, v = .object c fs ∧
      Assoc.get? (m.prop q).field fs = some (.object w hs) ∧ KeepsMixed m (m.prop p) hs e ∧
      ∀ gs tag y, SameBeside elementField fs gs →
        writeObject m c (fieldWriters m gs) tag = .ok y →
          y.tag = tag ∧ MixedRestored m (m.prop p) e y := by
  obtain ⟨etag, attributes, text, tail, children⟩ := e
  obtain ⟨fs, hs, vs, rfl, habsent, hq, hvs, hread, hruns⟩ := mixed_of_readObject hm h
  have hks := element_childReaders (m := m) children
  have hkept : List.Forall₂ (fun k v => m.classOfType? (typeFor (m.prop p) k.tag) = none →
      v = Datum.element k) children vs := by
    rw [← hks]
    exact List.forall₂_map_left_iff.mpr (hread.imp fun k v hv htype =>
      readValue_of_untyped hm.kind htype hv)
  have htails : (childReaders m children).map (fun k => k.element.tail) =
      children.map Xml.Element.tail := by
    conv_rhs => rw [← hks, List.map_map]
    rfl
  rw [htails] at hruns
  refine ⟨fs, hs, rfl, hq, ⟨⟨vs, hvs, hkept.length_eq.symm, hkept⟩, hruns.contains (by simp)⟩, ?_⟩
  intro gs tag y hgs hy
  have hqmem : (m.prop q).field ∈ m.fields c := by
    obtain ⟨l, l', hprops, -⟩ := hm.properties
    exact List.mem_map_of_mem (by rw [hprops]; simp)
  have hqg : Assoc.get? (m.prop q).field gs = some (.object w hs) := by
    rw [hgs _ (fun he => (hfields c hc).2 (he ▸ hqmem)), hq]
  have htext : Assoc.get? textField gs = none := by
    rw [hgs _ (by decide), habsent _ (hfields c hc).1]
  obtain ⟨zs, hzs, htag, htext, hchildren⟩ := mixed_of_writeObject hm htext hqg hvs hruns hy
  refine ⟨htag, htext, ?_⟩
  have hitems := mixedItems_ok hm.kind
    (childReaders_untagged (fun c hc => (hfields c hc).2) children) hread hzs
  rw [hks] at hitems
  rw [hchildren]
  exact mixedChildren_of_tails hitems

end Enfold.Binding
