import Enfold.Proofs.Binding.Written

/-! # What reading takes

A property takes children from the front of those that are left, and none but those that it
accepts. A child that no property of a class takes is left in the end, and the element is rejected.
A property that accepts none of the children might as well not be there.
-/

namespace Enfold.Binding

variable {m : Model} {c w : ClassId} {x : Property} {p q : PropertyId} {fs gs : Fields} {k : Child}
  {ks ks' ks'' : List Child} {e : Xml.Element} {text : String} {s t : Progress}
  {l : List PropertyId} {ok ok' : String → Bool}

def takesItem (x : Property) (tag : String) : Bool := x.kind = .mixed || accepts x tag

/-- Whether a property takes elements of a tag, be it for its wrapper. -/
def takes (m : Model) (q : PropertyId) (tag : String) : Bool :=
  !(m.prop q).isAttribute && match (m.prop q).reference with
    | some w => (m.decl w).properties.any fun x => takesItem (m.prop x) tag
    | none => takesItem (m.prop q) tag

theorem takesItem_of_mixed (hx : x.kind = .mixed) (tag : String) : takesItem x tag = true := by
  simp [takesItem, hx]

theorem takesItem_of_accepts {tag : String} (hx : accepts x tag = true) :
    takesItem x tag = true := by
  simp [takesItem, hx]

/-! ### What a property reads -/

theorem readProperty_of_reference (ha : (m.prop q).isAttribute = false)
    (hr : (m.prop q).reference = some w) (h : readProperty m c e s q = .ok t) :
    ∃ u, readWrapped m w e.text (m.decl w).properties (Instance.fresh m w, s.2) = .ok u ∧
      t = (Assoc.put (m.prop q).field (.object w u.1) s.1, u.2) := by
  unfold readProperty at h
  simp only [ha, hr, Bool.false_eq_true, if_false] at h
  obtain ⟨u, hu, h⟩ := exceptBind_eq_ok.mp h
  cases h
  exact ⟨u, hu, rfl⟩

theorem readProperty_of_mixed (ha : (m.prop q).isAttribute = false)
    (hr : (m.prop q).reference = none) (hk : (m.prop q).kind = .mixed) :
    readProperty m c e s q = readMixed m c (m.prop q) e.text s.1 s.2 := by
  unfold readProperty
  simp only [ha, hr, hk, Bool.false_eq_true, if_false, if_true]

theorem readProperty_of_repeated (hq : Plain (m.prop q))
    (hr : (m.prop q).multiplicity = .repeated) :
    readProperty m c e (fs, ks) q = readItems m c (m.prop q) fs ks := by
  unfold readProperty
  simp only [hq.isAttribute, hq.reference, hq.kind, hr, Bool.false_eq_true, if_false, if_true]

section Single

variable (hq : Plain (m.prop q)) (hr : (m.prop q).multiplicity ≠ .repeated)
include hq hr

theorem readProperty_nil : readProperty m c e (fs, []) q = .ok (fs, []) := by
  unfold readProperty
  simp only [hq.isAttribute, hq.reference, hq.kind, hr, Bool.false_eq_true, if_false]
  rfl

theorem readProperty_cons : readProperty m c e (fs, k :: ks) q =
    if accepts (m.prop q) k.element.tag then
      (readValue m (m.prop q) k).map fun v => (Assoc.put (m.prop q).field v fs, ks)
    else .ok (fs, k :: ks) := by
  unfold readProperty
  simp only [hq.isAttribute, hq.reference, hq.kind, hr, Bool.false_eq_true, if_false]
  rfl

end Single

/-! ### Children from the front -/

/-- Some children are left when others, all of certain tags, are taken from the front. -/
def Leaves (ok : String → Bool) (ks ks' : List Child) : Prop :=
  ∃ taken, ks = taken ++ ks' ∧ ∀ k ∈ taken, ok k.element.tag = true

namespace Leaves

theorem refl (ok : String → Bool) (ks : List Child) : Leaves ok ks ks :=
  ⟨[], rfl, by simp⟩

theorem trans (h : Leaves ok ks ks') (h' : Leaves ok ks' ks'') : Leaves ok ks ks'' := by
  obtain ⟨l, rfl, hl⟩ := h
  obtain ⟨l', rfl, hl'⟩ := h'
  refine ⟨l ++ l', by simp, fun k hk => ?_⟩
  rcases List.mem_append.mp hk with hk | hk
  · exact hl k hk
  · exact hl' k hk

theorem mono (h : Leaves ok ks ks') (hok : ∀ tag, ok tag = true → ok' tag = true) :
    Leaves ok' ks ks' := by
  obtain ⟨l, rfl, hl⟩ := h
  exact ⟨l, rfl, fun k hk => hok _ (hl k hk)⟩

theorem subset (h : Leaves ok ks ks') : ks' ⊆ ks := by
  obtain ⟨l, rfl, -⟩ := h
  exact List.subset_append_right l ks'

theorem mem (h : Leaves ok ks ks') (hk : k ∈ ks) (hn : ok k.element.tag = false) : k ∈ ks' := by
  obtain ⟨l, rfl, hl⟩ := h
  rcases List.mem_append.mp hk with hk | hk
  · rw [hl k hk] at hn
    cases hn
  · exact hk

end Leaves

/-! ### One property -/

theorem readItems_leaves (h : readItems m c x fs ks = .ok t) : Leaves (accepts x) ks t.2 := by
  induction ks generalizing fs with
  | nil =>
    cases h
    exact .refl _ _
  | cons k ks ih =>
    rw [readItems] at h
    split at h
    · next ha =>
      obtain ⟨v, -, h⟩ := exceptBind_eq_ok.mp h
      obtain ⟨gs, -, h⟩ := exceptBind_eq_ok.mp h
      have htaken : Leaves (accepts x) (k :: ks) ks := ⟨[k], rfl, by simpa using ha⟩
      exact htaken.trans (ih h)
    · cases h
      exact .refl _ _

theorem readMixed_leaves (h : readMixed m c x text fs ks = .ok t) : t.2 = [] := by
  unfold readMixed at h
  obtain ⟨_, -, h⟩ := exceptBind_eq_ok.mp h
  dsimp only at h
  split at h
  all_goals
    obtain ⟨_, -, h⟩ := exceptBind_eq_ok.mp h
    obtain ⟨_, -, h⟩ := exceptBind_eq_ok.mp h
    obtain ⟨_, -, h⟩ := exceptBind_eq_ok.mp h
    cases h
    rfl

theorem leaves_of_mixed (h : readMixed m c x text fs ks = .ok t) (hok : ∀ tag, ok tag = true) :
    Leaves ok ks t.2 :=
  ⟨ks, by rw [readMixed_leaves h, List.append_nil], fun _ _ => hok _⟩

theorem readWrapped_leaves (h : readWrapped m c text l s = .ok t) :
    Leaves (fun tag => l.any fun x => takesItem (m.prop x) tag) s.2 t.2 := by
  induction l generalizing s with
  | nil =>
    cases h
    exact .refl _ _
  | cons q l ih =>
    obtain ⟨fs, ks⟩ := s
    rw [readWrapped] at h
    split at h
    · exact (ih h).mono fun tag ht => by rw [List.any_cons, ht, Bool.or_true]
    · split at h
      · next hk =>
        refine leaves_of_mixed h fun tag => ?_
        rw [List.any_cons, takesItem_of_mixed hk, Bool.true_or]
      · obtain ⟨gs, -, h⟩ := exceptBind_eq_ok.mp h
        obtain ⟨u, hu, h⟩ := exceptBind_eq_ok.mp h
        refine ((readItems_leaves hu).mono fun tag ht => ?_).trans ((ih h).mono fun tag ht => ?_)
        · rw [List.any_cons, takesItem_of_accepts ht, Bool.true_or]
        · rw [List.any_cons, ht, Bool.or_true]

/-- A property takes nothing but what it can take. -/
theorem readProperty_leaves (h : readProperty m c e s q = .ok t) :
    Leaves (takes m q) s.2 t.2 := by
  unfold readProperty at h
  obtain ⟨fs, ks⟩ := s
  dsimp only at h
  split at h
  · split at h <;> cases h <;> exact .refl _ _
  · next ha =>
    have ha : (m.prop q).isAttribute = false := by simpa using ha
    split at h
    · next w hw =>
      obtain ⟨u, hu, h⟩ := exceptBind_eq_ok.mp h
      cases h
      refine (readWrapped_leaves hu).mono fun tag ht => ?_
      rw [takes, ha, hw]
      exact ht
    · next hr =>
      have htakes (tag) : takes m q tag = takesItem (m.prop q) tag := by
        rw [takes, ha, hr]
        rfl
      split at h
      · next hk => exact leaves_of_mixed h fun tag => by rw [htakes, takesItem_of_mixed hk]
      · split at h
        · exact (readItems_leaves h).mono fun tag ht => by rw [htakes, takesItem_of_accepts ht]
        · split at h
          · next k ks =>
            split at h
            · next hacc =>
              obtain ⟨v, -, h⟩ := exceptBind_eq_ok.mp h
              cases h
              refine ⟨[k], rfl, fun k' hk' => ?_⟩
              rw [List.mem_singleton.mp hk', htakes, takesItem_of_accepts hacc]
            · cases h
              exact .refl _ _
          · cases h
            exact .refl _ _

/-! ### One element -/

theorem foldlM_readProperty_leaves (h : l.foldlM (readProperty m c e) s = .ok t) :
    Leaves (fun tag => l.any fun q => takes m q tag) s.2 t.2 := by
  induction l generalizing s with
  | nil =>
    cases h
    exact .refl _ _
  | cons q l ih =>
    rw [List.foldlM_cons] at h
    obtain ⟨u, hu, h⟩ := exceptBind_eq_ok.mp h
    refine ((readProperty_leaves hu).mono fun tag ht => ?_).trans ((ih h).mono fun tag ht => ?_)
    · rw [List.any_cons, ht, Bool.true_or]
    · rw [List.any_cons, ht, Bool.or_true]

/-- An element with a child that no property of its class takes is rejected. -/
theorem readObject_error (hw : (m.decl c).isWrapper = false) (hk : k ∈ ks)
    (hn : ∀ q ∈ (m.decl c).properties, takes m q k.element.tag = false) :
    ∃ err, readObject m c e ks = .error err := by
  unfold readObject
  cases hf : (m.decl c).properties.foldlM (readProperty m c e) (Instance.fresh m c, ks) with
  | error err => exact ⟨err, rfl⟩
  | ok t =>
    have hleft : k ∈ t.2 := (foldlM_readProperty_leaves hf).mem hk (by simpa using hn)
    obtain ⟨gs, rest⟩ := t
    cases rest with
    | nil => cases hleft
    | cons k' rest =>
      refine ⟨.unexpectedElement k'.element.tag (m.qualifiedName c), ?_⟩
      rw [hw]
      rfl

/-! ### Properties that take nothing -/

theorem readProperty_of_missed (hp : Plain (m.prop p))
    (hk : ∀ k ∈ ks.head?, accepts (m.prop p) k.element.tag = false) :
    readProperty m c e (fs, ks) p = .ok (fs, ks) := by
  by_cases hr : (m.prop p).multiplicity = .repeated
  · rw [readProperty_of_repeated hp hr]
    cases ks with
    | nil => rfl
    | cons k ks =>
      rw [readItems, hk k rfl]
      rfl
  · cases ks with
    | nil => exact readProperty_nil hp hr
    | cons k ks =>
      rw [readProperty_cons hp hr, hk k rfl]
      rfl

/-- Properties that accept none of the children can be left out. -/
theorem foldlM_readProperty_filter {keep : PropertyId → Bool}
    (h : ∀ p ∈ l, keep p = false → Plain (m.prop p) ∧
      ∀ k ∈ s.2, accepts (m.prop p) k.element.tag = false) :
    l.foldlM (readProperty m c e) s = (l.filter keep).foldlM (readProperty m c e) s := by
  induction l generalizing s with
  | nil => rfl
  | cons p l ih =>
    have hl {t : Progress} (ht : t.2 ⊆ s.2) :
        l.foldlM (readProperty m c e) t = (l.filter keep).foldlM (readProperty m c e) t := by
      refine ih fun q hq hkq => ?_
      obtain ⟨hplain, hn⟩ := h q (List.mem_cons_of_mem _ hq) hkq
      exact ⟨hplain, fun k hk => hn k (ht hk)⟩
    rw [List.foldlM_cons]
    cases hkp : keep p with
    | false =>
      obtain ⟨hplain, hn⟩ := h p List.mem_cons_self hkp
      rw [List.filter_cons_of_neg (by simp [hkp])]
      obtain ⟨fs, ks⟩ := s
      rw [readProperty_of_missed hplain fun k hk => hn k (List.mem_of_mem_head? hk)]
      exact hl (List.Subset.refl _)
    | true =>
      rw [List.filter_cons_of_pos hkp, List.foldlM_cons]
      cases ht : readProperty m c e s p with
      | error err => rfl
      | ok t => exact hl (readProperty_leaves ht).subset

end Enfold.Binding
