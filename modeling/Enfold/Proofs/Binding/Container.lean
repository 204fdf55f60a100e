import Mathlib.Data.List.Nodup
import Enfold.Binding.Read
import Enfold.Proofs.Except

/-! # Containers of an object

What is appended to a field goes to the end of its container, which is made first if need be. No
other field of the object changes.
-/

namespace Enfold

/-- Two records of values that differ in one field at most. -/
def SameBeside (field : String) (fs fs' : Fields) : Prop :=
  ∀ f, f ≠ field → Assoc.get? f fs' = Assoc.get? f fs

theorem SameBeside.refl (field : String) (fs : Fields) : SameBeside field fs fs := fun _ _ => rfl

theorem SameBeside.trans {field : String} {fs fs' fs'' : Fields} (h : SameBeside field fs fs')
    (h' : SameBeside field fs' fs'') : SameBeside field fs fs'' :=
  fun f hf => (h' f hf).trans (h f hf)

theorem sameBeside_put (field : String) (d : Datum) (fs : Fields) :
    SameBeside field fs (Assoc.put field d fs) :=
  fun _ hf => Assoc.get?_put_of_ne (Ne.symm hf) d fs

namespace Instance

variable {m : Model} {c : ClassId} {p : PropertyId} {x : Property} {fs : Fields} {xs : List Datum}

theorem wrappedField_of_mem (hn : (m.fields c).Nodup) (hp : p ∈ (m.decl c).properties) :
    wrappedField m c (some (m.prop p).field) = .ok (m.prop p) := by
  unfold wrappedField
  dsimp only
  cases hf : ((m.decl c).properties.map m.prop).find? fun y => y.field = (m.prop p).field with
  | none =>
    have := List.find?_eq_none.mp hf (m.prop p) (List.mem_map_of_mem hp)
    simp at this
  | some y =>
    obtain ⟨q, hq, rfl⟩ := List.mem_map.mp (List.mem_of_find?_eq_some hf)
    have he : (m.prop q).field = (m.prop p).field := by simpa using List.find?_some hf
    rw [List.inj_on_of_nodup_map hn hq hp he]

theorem exists_newContainer (x : Property) : ∃ k, newContainer x = .container k [] := by
  unfold newContainer
  split
  · exact ⟨_, rfl⟩
  · exact ⟨_, rfl⟩

/-- A field holds some items; without any it may have no container. -/
def Holds (x : Property) (fs : Fields) (xs : List Datum) : Prop :=
  (∃ k, Assoc.get? x.field fs = some (.container k xs)) ∨
    Assoc.get? x.field fs = none ∧ xs = [] ∧ x.instantiation ≠ some .byCaller

theorem Holds.congr {gs : Fields} (h : Holds x fs xs)
    (hg : Assoc.get? x.field gs = Assoc.get? x.field fs) : Holds x gs xs := by
  unfold Holds
  rwa [hg]

theorem holds_put (k : ContainerKind) (xs : List Datum) (fs : Fields) :
    Holds x (Assoc.put x.field (.container k xs) fs) xs :=
  Or.inl ⟨k, Assoc.get?_put_self _ _ _⟩

theorem append_ok (hx : wrappedField m c (some x.field) = .ok x) (h : Holds x fs xs) (v : Datum) :
    ∃ fs', append m c fs v (some x.field) = .ok fs' ∧ Holds x fs' (xs ++ [v]) ∧
      SameBeside x.field fs fs' := by
  rcases h with ⟨k, hk⟩ | ⟨hk, rfl, hi⟩
  · refine ⟨Assoc.put x.field (.container k (xs ++ [v])) fs, ?_, holds_put _ _ _,
      sameBeside_put _ _ _⟩
    simp [append, items, hx, hk, bind, Except.bind, pure, Except.pure, Datum.isNull, push]
  · obtain ⟨k, hc⟩ := exists_newContainer x
    refine ⟨Assoc.put x.field (.container k ([] ++ [v])) (Assoc.put x.field (newContainer x) fs),
      ?_, holds_put _ _ _, (sameBeside_put _ _ _).trans (sameBeside_put _ _ _)⟩
    simp [append, items, hx, hk, hi, hc, bind, Except.bind, pure, Except.pure, Datum.isNull, push]

/-- What is there is kept, and what is not there is made. -/
theorem ensureContainer_ok (hx : wrappedField m c (some x.field) = .ok x)
    (h : ∀ d, Assoc.get? x.field fs = some d → d = newContainer x) :
    ∃ fs', ensureContainer m c fs x = .ok fs' ∧ Holds x fs' [] := by
  obtain ⟨k, hc⟩ := exists_newContainer x
  unfold ensureContainer Assoc.contains
  cases hd : Assoc.get? x.field fs with
  | some d => exact ⟨fs, rfl, Or.inl ⟨k, by rw [hd, h d hd, hc]⟩⟩
  | none =>
    refine ⟨Assoc.put x.field (newContainer x) fs, ?_, hc ▸ holds_put k [] fs⟩
    simp [setItems, hx, bind, Except.bind, pure, Except.pure]

theorem fresh_of_not_wrapper (h : (m.decl c).isWrapper = false) : fresh m c = [] := by
  simp [fresh, h]

theorem get?_fresh (h : (m.decl c).properties = [p]) {d : Datum}
    (hd : Assoc.get? (m.prop p).field (fresh m c) = some d) : d = newContainer (m.prop p) := by
  unfold fresh at hd
  rw [h, List.foldl_cons, List.foldl_nil] at hd
  dsimp only at hd
  split at hd
  · split at hd
    · rw [Assoc.get?_put_self] at hd
      exact (Option.some.inj hd).symm
    · cases hd
  · cases hd

/-! ### What a successful step says -/

def Has (field : String) (fs : Fields) (xs : List Datum) : Prop :=
  (∃ k, Assoc.get? field fs = some (.container k xs)) ∨ Assoc.get? field fs = none ∧ xs = []

variable {field : String} {fs' : Fields} {v : Datum}

theorem Holds.has (h : Holds x fs xs) : Has x.field fs xs :=
  h.imp_right fun ⟨hn, hxs, _⟩ => ⟨hn, hxs⟩

theorem Has.congr (h : Has field fs xs) (hg : Assoc.get? field fs' = Assoc.get? field fs) :
    Has field fs' xs := by
  unfold Has
  rwa [hg]

theorem has_newContainer (x : Property) (field : String) (fs : Fields) :
    Has field (Assoc.put field (newContainer x) fs) [] := by
  obtain ⟨k, hk⟩ := exists_newContainer x
  exact Or.inl ⟨k, by rw [Assoc.get?_put_self, hk]⟩

theorem field_of_wrappedField (h : wrappedField m c (some field) = .ok x) : x.field = field := by
  unfold wrappedField at h
  dsimp only at h
  split at h
  · next y hy =>
    cases h
    simpa using List.find?_some hy
  · cases h

theorem sameBeside_of_append (h : append m c fs v (some field) = .ok fs') :
    SameBeside field fs fs' := by
  obtain ⟨x, hx, h⟩ := exceptBind_eq_ok.mp h
  obtain ⟨⟨gs, d⟩, hd, h⟩ := exceptBind_eq_ok.mp h
  obtain ⟨x', hx', hd⟩ := exceptBind_eq_ok.mp hd
  rw [field_of_wrappedField hx'] at hd
  have hb : SameBeside field fs gs := by
    split at hd
    · cases hd
      exact .refl _ _
    · split at hd
      · cases hd
        exact .refl _ _
      · cases hd
        exact sameBeside_put _ _ _
  dsimp only at h
  split at h
  · cases h
  · obtain ⟨d', -, h⟩ := exceptBind_eq_ok.mp h
    cases h
    rw [field_of_wrappedField hx]
    exact hb.trans (sameBeside_put _ _ _)

/-- What was appended is the last item, and no other field has changed. -/
theorem has_of_append (hs : Has field fs xs) (h : append m c fs v (some field) = .ok fs') :
    Has field fs' (xs ++ [v]) ∧ SameBeside field fs fs' := by
  refine ⟨?_, sameBeside_of_append h⟩
  obtain ⟨x, hx, h⟩ := exceptBind_eq_ok.mp h
  obtain ⟨⟨gs, d⟩, hd, h⟩ := exceptBind_eq_ok.mp h
  obtain ⟨x', hx', hd⟩ := exceptBind_eq_ok.mp hd
  rw [field_of_wrappedField hx'] at hd
  rw [field_of_wrappedField hx] at h
  have appended {k : ContainerKind} {gs : Fields} (hf : (push m v (.container k xs) >>= fun d =>
      pure (Assoc.put field d gs)) = Except.ok fs') : Has field fs' (xs ++ [v]) := by
    obtain ⟨d, hp, hf⟩ := exceptBind_eq_ok.mp hf
    cases hp
    cases hf
    exact Or.inl ⟨k, Assoc.get?_put_self _ _ _⟩
  rcases hs with ⟨k, hk⟩ | ⟨hn, rfl⟩
  · rw [hk] at hd
    cases hd
    exact appended h
  · rw [hn] at hd
    dsimp only at hd
    split at hd
    · cases hd
      cases h
    · cases hd
      obtain ⟨k, hk⟩ := exists_newContainer x'
      rw [hk] at h
      exact appended h

theorem has_of_ensureContainer (hs : Has x.field fs xs) (h : ensureContainer m c fs x = .ok fs') :
    Has x.field fs' xs ∧ SameBeside x.field fs fs' := by
  unfold ensureContainer at h
  split at h
  · cases h
    exact ⟨hs, .refl _ _⟩
  · next hc =>
    obtain ⟨y, hy, h⟩ := exceptBind_eq_ok.mp h
    cases h
    rw [field_of_wrappedField hy]
    rcases hs with ⟨k, hk⟩ | ⟨-, rfl⟩
    · simp [Assoc.contains, hk] at hc
    · exact ⟨has_newContainer x _ _, sameBeside_put _ _ _⟩

theorem has_fresh (m : Model) (c : ClassId) (field : String) : Has field (fresh m c) [] := by
  have fold (l : List PropertyId) (fs : Fields) (h : Has field fs []) :
      Has field (l.foldl (fun fs p =>
        let q := m.prop p
        if q.instantiation = some .eager then Assoc.put q.field (newContainer q) fs else fs)
        fs) [] := by
    induction l generalizing fs with
    | nil => exact h
    | cons p l ih =>
      refine ih _ ?_
      dsimp only
      split
      · by_cases hf : (m.prop p).field = field
        · exact hf ▸ has_newContainer (m.prop p) _ fs
        · exact h.congr (sameBeside_put _ _ _ _ (Ne.symm hf))
      · exact h
  unfold fresh
  split
  · exact fold _ _ (Or.inr ⟨rfl, rfl⟩)
  · exact Or.inr ⟨rfl, rfl⟩

end Instance
end Enfold
