import Enfold.Proofs.Binding.Items

/-! # What reading leaves alone

Reading an element as an object changes nothing but the fields of its class. The text of an element
without children is kept beside them.
-/

namespace Enfold.Binding

variable {m : Model} {c : ClassId} {x : Property} {q : PropertyId} {fs gs : Fields}
  {e : Xml.Element} {s t : Progress} {l : List PropertyId} {ks : List Child} {keeps : Bool}
  {text f : String} {v : Datum}

theorem readItems_untouched (hx : f ≠ x.field) (h : readItems m c x fs ks = .ok t) :
    Assoc.get? f t.1 = Assoc.get? f fs := by
  induction ks generalizing fs with
  | nil =>
    cases h
    rfl
  | cons k ks ih =>
    rw [readItems] at h
    split at h
    · obtain ⟨v, -, h⟩ := exceptBind_eq_ok.mp h
      obtain ⟨us, hu, h⟩ := exceptBind_eq_ok.mp h
      rw [ih h, Instance.sameBeside_of_append hu f hx]
    · cases h
      rfl

section Elsewhere

variable (hf : f ∉ m.fields c)
include hf

theorem appendText_untouched (h : appendText m c keeps fs text = .ok gs) :
    Assoc.get? f gs = Assoc.get? f fs := by
  unfold appendText at h
  split at h
  · refine Instance.sameBeside_of_append h f ?_
    rintro rfl
    exact hf (Instance.mem_fields_of_append h)
  · cases h
    rfl

theorem readMixedItems_untouched (hx : f ≠ x.field)
    (h : readMixedItems m c x keeps fs ks = .ok gs) : Assoc.get? f gs = Assoc.get? f fs := by
  induction ks generalizing fs with
  | nil =>
    cases h
    rfl
  | cons k ks ih =>
    rw [readMixedItems] at h
    obtain ⟨v, -, h⟩ := exceptBind_eq_ok.mp h
    obtain ⟨us, hu, h⟩ := exceptBind_eq_ok.mp h
    obtain ⟨us', hu', h⟩ := exceptBind_eq_ok.mp h
    rw [ih h, appendText_untouched hf hu', Instance.sameBeside_of_append hu f hx]

theorem readMixed_untouched (hx : f ≠ x.field) (h : readMixed m c x text fs ks = .ok t) :
    Assoc.get? f t.1 = Assoc.get? f fs := by
  have hitems {us : Fields} {keeps : Bool} (h : (do
        let fs ← appendText m c keeps us text
        return (← readMixedItems m c x keeps fs ks, [])) = Except.ok t) :
      Assoc.get? f t.1 = Assoc.get? f us := by
    obtain ⟨vs, hv, h⟩ := exceptBind_eq_ok.mp h
    obtain ⟨gs, hg, h⟩ := exceptBind_eq_ok.mp h
    cases h
    rw [readMixedItems_untouched hf hx hg, appendText_untouched hf hv]
  obtain ⟨us, hu, h⟩ := exceptBind_eq_ok.mp h
  rw [← Instance.sameBeside_of_ensureContainer hu f hx]
  dsimp only at h
  split at h
  · next q hq =>
    have hne : f ≠ (m.prop q).field := by
      rintro rfl
      exact hf (List.mem_map_of_mem (mem_of_propertyNamed? hq).1)
    obtain ⟨us', hu', h⟩ := exceptBind_eq_ok.mp h
    rw [← Instance.sameBeside_of_ensureContainer hu' f hne]
    exact hitems h
  · exact hitems h

/-- The step of reading. -/
theorem readProperty_untouched (hq : q ∈ (m.decl c).properties)
    (h : readProperty m c e s q = .ok t) : Assoc.get? f t.1 = Assoc.get? f s.1 := by
  have hne : f ≠ (m.prop q).field := by
    rintro rfl
    exact hf (List.mem_map_of_mem hq)
  have hput (d : Datum) (fs : Fields) :
      Assoc.get? f (Assoc.put (m.prop q).field d fs) = Assoc.get? f fs :=
    sameBeside_put _ d fs f hne
  unfold readProperty at h
  obtain ⟨fs, ks⟩ := s
  dsimp only at h
  split at h
  · split at h <;> cases h
    · exact hput _ _
    · rfl
  · split at h
    · obtain ⟨u, -, h⟩ := exceptBind_eq_ok.mp h
      cases h
      exact hput _ _
    · split at h
      · exact readMixed_untouched hf hne h
      · split at h
        · exact readItems_untouched hne h
        · split at h
          · split at h
            · obtain ⟨v, -, h⟩ := exceptBind_eq_ok.mp h
              cases h
              exact hput _ _
            · cases h
              rfl
          · cases h
            rfl

end Elsewhere

theorem get?_of_readProperties (hf : f ∉ m.fields c)
    (h : (m.decl c).properties.foldlM (readProperty m c e) (Instance.fresh m c, ks) = .ok t) :
    Assoc.get? f t.1 = none := by
  have hkept : Assoc.get? f t.1 = Assoc.get? f (Instance.fresh m c) :=
    foldlM_invariant (P := fun u : Progress => Assoc.get? f u.1 = _)
      (fun q hq _ _ hs h => (readProperty_untouched hf hq h).trans hs) rfl h
  rw [hkept, Instance.get?_fresh_of_notMem hf]

/-- Children are left of a wrapper alone. -/
theorem readObject_ok (h : readObject m c e ks = .ok v) : ∃ t us,
    (m.decl c).properties.foldlM (readProperty m c e) (Instance.fresh m c, ks) = .ok t ∧
      v = .object c us ∧
      (us = t.1 ∨ holdsText m c = true ∧ us = Assoc.put textField (.text e.text) t.1) ∧
        ((m.decl c).isWrapper = false → t.2 = []) := by
  obtain ⟨⟨gs, rest⟩, hrun, h⟩ := exceptBind_eq_ok.mp h
  have hheld (h : (if (ks.isEmpty && holdsText m c && Text.trim e.text ≠ "") = true then
      .ok (.object c (Assoc.put textField (.text e.text) gs)) else .ok (.object c gs) :
        Except BindingError Datum) = .ok v) : ∃ us, v = .object c us ∧
          (us = gs ∨ holdsText m c = true ∧ us = Assoc.put textField (.text e.text) gs) := by
    split at h
    · next htext =>
      cases h
      rw [Bool.and_eq_true, Bool.and_eq_true] at htext
      exact ⟨_, rfl, Or.inr ⟨htext.1.2, rfl⟩⟩
    · cases h
      exact ⟨gs, rfl, Or.inl rfl⟩
  cases rest with
  | nil =>
    obtain ⟨us, hv, hus⟩ := hheld h
    exact ⟨_, us, hrun, hv, hus, fun _ => rfl⟩
  | cons k rest =>
    dsimp only at h
    split at h
    · cases h
    · next hw =>
      obtain ⟨us, hv, hus⟩ := hheld h
      exact ⟨_, us, hrun, hv, hus, fun hcw => absurd hcw (by simpa using hw)⟩

theorem object_of_readObject (h : readObject m c e ks = .ok v) : ∃ fs, v = .object c fs ∧
    ∀ f, f ∉ m.fields c → f ≠ textField → Assoc.get? f fs = none := by
  obtain ⟨t, us, hrun, rfl, hus, -⟩ := readObject_ok h
  refine ⟨us, rfl, fun f hf ht => ?_⟩
  rcases hus with rfl | ⟨-, rfl⟩
  · exact get?_of_readProperties hf hrun
  · rw [sameBeside_put _ _ _ f ht]
    exact get?_of_readProperties hf hrun

theorem object_of_reader (h : reader m e c = .ok v) : ∃ fs, v = .object c fs ∧
    ∀ f, f ∉ m.fields c → f ≠ textField → Assoc.get? f fs = none := by
  obtain ⟨_, _, _, _, children⟩ := e
  exact object_of_readObject h

end Enfold.Binding
