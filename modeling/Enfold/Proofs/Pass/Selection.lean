import Enfold.Proofs.Model.Walk
import Enfold.Proofs.Pass.Stages

/-! # What is chosen

The choice of a run is a function of its settings and of the model it starts from: the properties
of the walk that may hold many values and whose directives ask for a wrapper.
-/

namespace Enfold

namespace Customization

variable (z : Customization) (m : Model)

def candidate? (c : ClassId) (p : PropertyId) : Option Candidate :=
  if (m.prop p).isMultiValued then
    ((z.resolve m p).toOption.filter Directive.wrap).map (Candidate.of m c p)
  else none

/-- The candidates of a class. Wrappers of earlier runs have none. -/
def candidatesOf (c : ClassId) : List Candidate :=
  if (m.decl c).isWrapper then [] else (m.decl c).properties.filterMap (z.candidate? m c)

def candidates : List Candidate := m.walk.flatMap (z.candidatesOf m)

variable {z m} {c : ClassId} {p : PropertyId} {k : Candidate}

theorem candidate?_eq_some : z.candidate? m c p = some k ↔
    (m.prop p).isMultiValued = true ∧
      ∃ d, z.resolve m p = .ok d ∧ d.wrap = true ∧ k = Candidate.of m c p d := by
  unfold candidate?
  split
  · next h =>
    cases hr : z.resolve m p with
    | error e => simp [Except.toOption]
    | ok d => simp [Except.toOption, h, eq_comm (a := k)]
  · next h => simp [h]

theorem mem_candidatesOf : k ∈ z.candidatesOf m c ↔ (m.decl c).isWrapper = false ∧
    ∃ p ∈ (m.decl c).properties, z.candidate? m c p = some k := by
  unfold candidatesOf
  split <;> simp_all

/-- A candidate may hold many values and has a directive. -/
theorem of_mem_candidates (h : k ∈ z.candidates m) :
    k.prop ∈ (m.decl k.owner).properties ∧ (m.prop k.prop).isMultiValued = true ∧
      z.resolve m k.prop = .ok k.directive ∧ k.directive.wrap = true := by
  obtain ⟨c, -, hk⟩ := List.mem_flatMap.mp h
  obtain ⟨-, p, hp, hk⟩ := mem_candidatesOf.mp hk
  obtain ⟨hv, d, hd, hw, rfl⟩ := candidate?_eq_some.mp hk
  exact ⟨hp, hv, hd, hw⟩

theorem mem_candidates {d : Directive} (hc : c ∈ m.walk) (hw : (m.decl c).isWrapper = false)
    (hp : p ∈ (m.decl c).properties) (hv : (m.prop p).isMultiValued = true)
    (hd : z.resolve m p = .ok d) (hwrap : d.wrap = true) :
    Candidate.of m c p d ∈ z.candidates m := by
  have hk := candidate?_eq_some (c := c).mpr ⟨hv, d, hd, hwrap, rfl⟩
  exact List.mem_flatMap.mpr ⟨c, hc, mem_candidatesOf.mpr ⟨hw, p, hp, hk⟩⟩

theorem prop_of_candidate? (h : z.candidate? m c p = some k) : k.prop = p ∧ k.owner = c := by
  obtain ⟨-, d, -, -, rfl⟩ := candidate?_eq_some.mp h
  exact ⟨rfl, rfl⟩

theorem map_prop_candidatesOf : ((z.candidatesOf m c).map Candidate.prop).Sublist
    (m.decl c).properties := by
  unfold candidatesOf
  split
  · exact List.nil_sublist _
  · have hf : (fun p => (z.candidate? m c p).map Candidate.prop) =
        Option.guard fun p => (z.candidate? m c p).isSome := by
      funext p
      cases h : z.candidate? m c p with
      | none => simp [Option.guard, h]
      | some k => simp [Option.guard, h, (prop_of_candidate? h).1]
    rw [List.map_filterMap, hf, List.filterMap_eq_filter]
    exact List.filter_sublist

theorem nodup_candidates (hm : m.Linked) : ((z.candidates m).map Candidate.prop).Nodup := by
  rw [candidates, List.map_flatMap, List.nodup_flatMap]
  refine ⟨fun c _ => (hm.nodup c).sublist map_prop_candidatesOf,
    (Model.nodup_walk hm).imp fun hne p hc hd => ?_⟩
  exact hne (hm.owner_unique (map_prop_candidatesOf.subset hc) (map_prop_candidatesOf.subset hd))

end Customization

open PassM Customization

variable {z : Customization} {c : ClassId} {p : PropertyId} {ks ks' : List Candidate}
  {s t : PassState}

theorem considerProperty_ok (h : (considerProperty z c ks p).run s = .ok ks' t) :
    ks' = ks ++ (z.candidate? s.model c p).toList := by
  unfold considerProperty at h
  rw [run_get_bind] at h
  dsimp only at h
  split at h
  · next hv =>
    cases h
    simp_all [candidate?]
  · next hv =>
    rw [run_count_bind, configured_bind_eq_ok] at h
    obtain ⟨d, hd, h⟩ := h
    split at h
    · next hw =>
      cases h
      have := (candidate?_eq_some (c := c)).mpr ⟨by simpa using hv, d, hd, hw, rfl⟩
      rw [this]
      rfl
    · next hw =>
      cases h
      have : z.candidate? s.model c p = none := by simp [candidate?, hd, Except.toOption, hw]
      simp [this]

theorem considerClass_ok (h : (considerClass z ks c).run s = .ok ks' t) :
    ks' = ks ++ z.candidatesOf s.model c := by
  unfold considerClass at h
  rw [run_get_bind] at h
  dsimp only at h
  unfold candidatesOf
  split at h
  · next hw =>
    cases h
    simp [hw]
  · next hw =>
    rw [if_neg hw]
    refine (foldlM_inv (fun done ks' u => u.model = s.model ∧
      ks' = ks ++ done.filterMap (z.candidate? s.model c)) ?_ ⟨rfl, by simp⟩ h).2
    rintro done p rest ks₁ ks₂ u v - ⟨hu, rfl⟩ hp
    refine ⟨((considerProperty_keeps (fun _ _ _ => rfl) z c _ p).of_ok hp).trans hu, ?_⟩
    rw [considerProperty_ok hp, hu]
    cases hk : z.candidate? s.model c p <;> simp [List.filterMap_append, hk]

theorem selectCandidates_ok (h : (selectCandidates z).run s = .ok ks t) :
    ks = z.candidates s.model := by
  unfold selectCandidates at h
  rw [run_get_bind] at h
  obtain ⟨ks, u, hf, h⟩ := bind_eq_ok.mp h
  cases h
  refine (foldlM_inv (fun done ks u => u.model = s.model ∧
    ks = done.flatMap (z.candidatesOf s.model)) ?_ ⟨rfl, rfl⟩ hf).2
  rintro done c rest ks₁ ks₂ u v - ⟨hu, rfl⟩ hc
  refine ⟨((considerClass_keeps (fun _ _ _ => rfl) z _ c).of_ok hc).trans hu, ?_⟩
  rw [considerClass_ok hc, hu, List.flatMap_append, List.flatMap_singleton]

theorem Pass.choose_ok {p : Pass} (h : p.choose.run s = .ok ks t) :
    ks = Customization.candidates ⟨p.options, p.control⟩ s.model ∧ t.model = s.model := by
  refine ⟨?_, p.choose_keepsModel.of_ok h⟩
  unfold choose at h
  rw [run_get_bind] at h
  dsimp only at h
  rw [run_report_bind, configured_bind_eq_ok] at h
  obtain ⟨_, _, h⟩ := h
  have := selectCandidates_ok h
  exact this

/-! ### When a choice can be made -/

/-- Customizations are in order, and what may hold many values has a directive. -/
structure Customization.Decides (z : Customization) (m : Model) : Prop where
  valid : z.validate m = .ok ()
  resolve : ∀ c ∈ m.walk, (m.decl c).isWrapper = false → ∀ q ∈ (m.decl c).properties,
    (m.prop q).isMultiValued = true → ∃ d, z.resolve m q = .ok d

theorem considerProperty_resolves (h : (considerProperty z c ks p).run s = .ok ks' t)
    (hv : (s.model.prop p).isMultiValued = true) : ∃ d, z.resolve s.model p = .ok d := by
  unfold considerProperty at h
  rw [run_get_bind] at h
  dsimp only at h
  rw [hv, Bool.not_true, if_neg Bool.false_ne_true, run_count_bind, configured_bind_eq_ok] at h
  obtain ⟨d, hd, -⟩ := h
  exact ⟨d, hd⟩

theorem considerClass_resolves (h : (considerClass z ks c).run s = .ok ks' t)
    (hw : (s.model.decl c).isWrapper = false) : ∀ q ∈ (s.model.decl c).properties,
      (s.model.prop q).isMultiValued = true → ∃ d, z.resolve s.model q = .ok d := by
  unfold considerClass at h
  rw [run_get_bind] at h
  dsimp only at h
  rw [hw, if_neg Bool.false_ne_true] at h
  refine (foldlM_inv (t := t) (fun done _ u => u.model = s.model ∧ ∀ q ∈ done,
    (s.model.prop q).isMultiValued = true → ∃ d, z.resolve s.model q = .ok d) ?_
      ⟨rfl, by simp⟩ h).2
  rintro done q rest ks₁ ks₂ u v - ⟨hu, hdone⟩ hq
  refine ⟨((considerProperty_keeps (fun _ _ _ => rfl) z c _ q).of_ok hq).trans hu, ?_⟩
  intro x hx hv
  rcases List.mem_append.mp hx with hx | hx
  · exact hdone x hx hv
  · obtain rfl := List.mem_singleton.mp hx
    exact hu ▸ considerProperty_resolves hq (hu ▸ hv)

theorem considerProperty_error {e : Failure} (h : (considerProperty z c ks p).run s = .error e t) :
    (s.model.prop p).isMultiValued = true ∧ ∃ x, z.resolve s.model p = .error x := by
  unfold considerProperty at h
  rw [run_get_bind] at h
  dsimp only at h
  split at h
  · cases h
  · next hv =>
    rw [run_count_bind] at h
    rcases bind_eq_error.mp h with h | ⟨d, u, -, h⟩
    · obtain ⟨x, hx, -⟩ := configured_eq_error.mp h
      exact ⟨by simpa using hv, x, hx⟩
    · split at h <;> cases h

theorem considerClass_error {e : Failure} (h : (considerClass z ks c).run s = .error e t) :
    (s.model.decl c).isWrapper = false ∧ ∃ q ∈ (s.model.decl c).properties,
      (s.model.prop q).isMultiValued = true ∧ ∃ x, z.resolve s.model q = .error x := by
  unfold considerClass at h
  rw [run_get_bind] at h
  dsimp only at h
  split at h
  · cases h
  · next hw =>
    obtain ⟨done, q, rest, ks₁, u, hsplit, hdone, hq⟩ := foldlM_eq_error h
    have hkeep : KeepsModel (done.foldlM (considerProperty z c) ks) :=
      .foldlM (fun ks q => considerProperty_keeps (fun _ _ _ => rfl) z c ks q) _ _
    have hu := hkeep.of_ok hdone
    obtain ⟨hv, x, hx⟩ := considerProperty_error hq
    rw [hu] at hv hx
    exact ⟨by simpa using hw, q, by rw [hsplit]; simp, hv, x, hx⟩

theorem selectCandidates_resolves (h : (selectCandidates z).run s = .ok ks t) :
    ∀ c ∈ s.model.walk, (s.model.decl c).isWrapper = false → ∀ q ∈ (s.model.decl c).properties,
      (s.model.prop q).isMultiValued = true → ∃ d, z.resolve s.model q = .ok d := by
  unfold selectCandidates at h
  rw [run_get_bind] at h
  obtain ⟨ks, u, hf, -⟩ := bind_eq_ok.mp h
  refine (foldlM_inv (t := u) (fun done _ v => v.model = s.model ∧ ∀ c ∈ done,
    (s.model.decl c).isWrapper = false → ∀ q ∈ (s.model.decl c).properties,
      (s.model.prop q).isMultiValued = true → ∃ d, z.resolve s.model q = .ok d) ?_
        ⟨rfl, by simp⟩ hf).2
  rintro done c rest ks₁ ks₂ v w - ⟨hv, hdone⟩ hc
  refine ⟨((considerClass_keeps (fun _ _ _ => rfl) _ _ c).of_ok hc).trans hv, ?_⟩
  intro d hd hw
  rcases List.mem_append.mp hd with hd | hd
  · exact hdone d hd hw
  · obtain rfl := List.mem_singleton.mp hd
    exact hv ▸ considerClass_resolves hc (hv ▸ hw)

theorem selectCandidates_error {e : Failure} (h : (selectCandidates z).run s = .error e t) :
    ∃ c ∈ s.model.walk, (s.model.decl c).isWrapper = false ∧
      ∃ q ∈ (s.model.decl c).properties, (s.model.prop q).isMultiValued = true ∧
        ∃ x, z.resolve s.model q = .error x := by
  unfold selectCandidates at h
  rw [run_get_bind] at h
  rcases bind_eq_error.mp h with h | ⟨_, _, -, h⟩
  · obtain ⟨done, c, rest, ks₁, u, hsplit, hdone, hc⟩ := foldlM_eq_error h
    have hkeep : KeepsModel (done.foldlM (considerClass z) []) :=
      .foldlM (fun ks c => considerClass_keeps (fun _ _ _ => rfl) z ks c) _ _
    have hu := hkeep.of_ok hdone
    have hfail := considerClass_error hc
    rw [hu] at hfail
    exact ⟨c, by rw [hsplit]; simp, hfail⟩
  · cases h

/-- A choice can be made exactly if all customizations are in order. -/
theorem Pass.choose_isOk_iff {p : Pass} : (∃ ks t, p.choose.run s = .ok ks t) ↔
    Customization.Decides ⟨p.options, p.control⟩ s.model := by
  constructor
  · rintro ⟨ks, t, h⟩
    unfold choose at h
    rw [run_get_bind] at h
    dsimp only at h
    rw [run_report_bind, configured_bind_eq_ok] at h
    obtain ⟨⟨⟩, hvalid, h⟩ := h
    have hresolve := selectCandidates_resolves h
    exact ⟨hvalid, hresolve⟩
  · intro hz
    cases hr : p.choose.run s with
    | ok ks t => exact ⟨ks, t, rfl⟩
    | error e t =>
      unfold choose at hr
      rw [run_get_bind] at hr
      dsimp only at hr
      rw [run_report_bind, hz.valid, EStateM.run_bind, run_configured_ok] at hr
      obtain ⟨c, hc, hw, q, hq, hv, x, hx⟩ := selectCandidates_error hr
      obtain ⟨d, hd⟩ := hz.resolve c hc hw q hq hv
      exact absurd (hd.symm.trans hx) (by simp)

end Enfold
