import Enfold.Proofs.Pass.Run

/-! # What remains of a model

After a run every class that was there is still there, with all but its list, and the classes that
were not there are wrappers. Whatever annotation is left was there before, at the same class or the
same property.
-/

namespace Enfold

open PassM

variable {n : Naming} {m m' m'' : Model} {s t : PassState} {c : ClassId} {p q : PropertyId}
  {rs : List Record} {r : Record}

/-! ### Properties -/

namespace Reshaped

/-- A class that was there lists what no record has touched, and references. -/
theorem kept_or_settled (h : Reshaped n m rs m') (hm : m.Linked) (hc : c.index < m.classes.size)
    (hp : p ∈ (m'.decl c).properties) :
    (p ∈ (m.decl c).properties ∧ (∀ r ∈ rs, r.candidate.prop ≠ p) ∧ m'.prop p = m.prop p) ∨
      ∃ r ∈ rs, r.candidate.owner = c ∧ r.deleted = false ∧ ∃ w, r.Settles n m m' w p := by
  rw [h.properties c hc] at hp
  obtain ⟨x, hx, hp⟩ := List.mem_flatMap.mp hp
  rcases h.slot_cases (hm.lt_of_mem hx) with
    ⟨hne, hs, hq⟩ | ⟨r, hr, rfl, ⟨-, hs⟩ | ⟨hdel, w, q, hs, hset⟩⟩
  · rw [hs, List.mem_singleton] at hp
    subst hp
    exact Or.inl ⟨hx, hne, hq⟩
  · rw [hs] at hp
    cases hp
  · rw [hs, List.mem_singleton] at hp
    subst hp
    exact Or.inr ⟨r, hr, hm.owner_unique (h.mem r hr) hx, hdel, w, hset⟩

theorem of_mem_properties (h : Reshaped n m rs m') (hm : m.Linked) (hc : c.index < m.classes.size)
    (hp : p ∈ (m'.decl c).properties) :
    (p ∈ (m.decl c).properties ∧ (∀ r ∈ rs, r.candidate.prop ≠ p) ∧ m'.prop p = m.prop p) ∨
      ∃ (r : Record) (w : ClassId), r.Settles n m m' w p :=
  (h.kept_or_settled hm hc hp).imp_right fun ⟨r, _, _, _, w, hset⟩ => ⟨r, w, hset⟩

theorem customization_cases (h : Reshaped n m rs m') (hm : m.Linked)
    (hp : p ∈ (m'.decl c).properties) : (m'.prop p).customization = .null ∨
      ∃ d, p ∈ (m.decl d).properties ∧ (m'.prop p).customization = (m.prop p).customization := by
  by_cases hc : c.index < m.classes.size
  · rcases h.of_mem_properties hm hc hp with ⟨hp, -, hsame⟩ | ⟨r, w, hset⟩
    · exact Or.inr ⟨c, hp, by rw [hsame]⟩
    · obtain ⟨_, _, _, hq⟩ := hset.standIn
      exact Or.inl (by rw [hq]; rfl)
  · have hwalk := (Model.mem_walk h.linked).mpr (Model.class_lt_of_mem hp)
    have hmem := (h.perm_walk hm).mem_iff.mp hwalk
    rw [List.mem_append, Model.mem_walk hm] at hmem
    obtain ⟨r, hr, -, q, hset⟩ := h.settles_of_mem (hmem.resolve_left hc)
    rcases hset.eq_or_textRuns hp with rfl | htext
    · exact Or.inr ⟨r.candidate.owner, h.mem r hr, by rw [hset.moved]; rfl⟩
    · exact Or.inl (by rw [htext]; rfl)

end Reshaped

theorem Record.Settles.isMultiValued_eq_false {w : ClassId} (h : r.Settles n m m' w q) :
    (m'.prop q).isMultiValued = false := by
  obtain ⟨_, _, _, hq⟩ := h.standIn
  rw [hq]
  simp [Property.isMultiValued, Property.standIn]

/-! ### Classes -/

theorem Rewriting.customization_eq_null (h : Rewriting n m rs m') (hm : m.Linked)
    (hn : ∀ p, (m.prop p).reference = none) (hc : m.classes.size ≤ c.index)
    (hc' : c.index < m'.classes.size) : (m'.decl c).customization = .null := by
  induction h with
  | start => exact absurd hc' (Nat.not_lt.mpr hc)
  | @drop rs m' r hrun hk hd ih =>
    have hmem := ((hrun.reshaped hm hn).mem_of_fresh hm hk).1
    rw [Model.size_unlink] at hc'
    rw [Model.decl_unlink (Model.class_lt_of_mem hmem)]
    split
    · next e => exact e ▸ ih hc'
    · exact ih hc'
  | @wrap rs m' m'' r w q plan hrun hk hd hrw hrq hp hw ih =>
    by_cases hcw : c = w
    · obtain ⟨_, hdecl⟩ := hw.wrapper
      rw [hcw, hdecl]
    · have hne : c ≠ r.candidate.owner := by
        rintro rfl
        exact absurd (Model.class_lt_of_mem hk.mem) (Nat.not_lt.mpr hc)
      rw [hw.class_eq hcw hne]
      apply ih
      rw [hw.size] at hc'
      rcases Nat.lt_succ_iff_lt_or_eq.mp hc' with hlt | heq
      · exact hlt
      · refine absurd ?_ hcw
        rw [hw.wrapper_eq, ← heq]

namespace Pass

variable {pass : Pass} {result : PassResult}

theorem isMultiValued_of_run (hm : s.model.Described) (h : pass.run.run s = .ok result t)
    (hr : r ∈ result.records) : (s.model.prop r.candidate.prop).isMultiValued = true := by
  obtain ⟨ks, -, -, -, -, -, -, -, hk, hc, -⟩ := run_stages hm h
  have := hc ▸ List.mem_map_of_mem (f := Record.candidate) hr
  exact (Customization.of_mem_candidates (hk ▸ this)).2.1

theorem isAttribute_of_run (hm : s.model.Described) (h : pass.run.run s = .ok result t)
    (hr : r ∈ result.records) : (s.model.prop r.candidate.prop).isAttribute = false := by
  have hv := isMultiValued_of_run hm h hr
  simp only [Property.isMultiValued, Bool.and_eq_true, Bool.not_eq_true'] at hv
  exact hv.1.1.1

theorem nodup_of_run (hm : s.model.Described) (h : pass.run.run s = .ok result t) :
    (result.records.map fun r => r.candidate.prop).Nodup := by
  obtain ⟨ks, -, -, -, -, -, -, -, hk, hc, -⟩ := run_stages hm h
  have := Customization.nodup_candidates (z := ⟨pass.options, pass.control⟩) hm.toLinked
  rwa [← hk, ← hc, List.map_map] at this

theorem decl_of_run (hm : s.model.Described) (h : pass.run.run s = .ok result t)
    (hc : c ∈ s.model.walk) (hn : c ∉ result.renamed) :
    ∃ ps, t.model.decl c = { s.model.decl c with properties := ps } := by
  obtain ⟨ks, u, v, w, -, -, hp, ht, -, -, hr⟩ := run_stages hm h
  obtain ⟨ps, hd⟩ := hr.decl_eq hm.toLinked (fun q => (hm.prop q).reference)
    ((Model.mem_walk hm.toLinked).mp hc)
  exact ⟨ps, by rw [ht, (placeClasses_relabelled hp).decl_eq c hn, hd]⟩

theorem nodup_fields_of_run (hm : s.model.Described) (h : pass.run.run s = .ok result t)
    (hc : c ∈ s.model.walk) (hf : (s.model.fields c).Nodup) : (t.model.fields c).Nodup := by
  obtain ⟨ks, u, v, w, -, -, hp, ht, -, -, hr⟩ := run_stages hm h
  rw [ht, (placeClasses_relabelled hp).fields_eq]
  exact hr.nodup_fields hm.toLinked (fun q => (hm.prop q).reference)
    ((Model.mem_walk hm.toLinked).mp hc) hf

/-- Without the wrappers the walk is that of the old classes. -/
theorem filter_walk_of_run (hm : s.model.Described) (h : pass.run.run s = .ok result t) :
    t.model.walk.filter (fun c => c.index < s.model.classes.size) = s.model.walk := by
  refine Model.filter_walk (reshaped_of_described hm h).size_classes_le fun c hc => ?_
  obtain ⟨ks, u, v, w, -, -, hp, ht, -, -, hr⟩ := run_stages hm h
  obtain ⟨_, hd⟩ := hr.decl_eq hm.toLinked (fun q => (hm.prop q).reference) hc
  rw [ht, ((placeClasses_relabelled hp).parent_eq c).1, hd]

theorem isWrapper_of_run (hm : s.model.Described) (h : pass.run.run s = .ok result t)
    (hc : c ∈ t.model.walk) (hn : ¬ c.index < s.model.classes.size) :
    (t.model.decl c).isWrapper = true := by
  have hs := reshaped_of_described hm h
  have hmem := (hs.perm_walk hm.toLinked).mem_iff.mp hc
  rw [List.mem_append, Model.mem_walk hm.toLinked] at hmem
  obtain ⟨_, -, -, _, hset⟩ := hs.settles_of_mem (hmem.resolve_left hn)
  exact hset.isWrapper

/-- After a run the wrappers are the classes that were not there before. -/
theorem isWrapper_eq_false_iff_of_run (hm : s.model.Described)
    (h : pass.run.run s = .ok result t) (hc : c ∈ t.model.walk) :
    (t.model.decl c).isWrapper = false ↔ c ∈ s.model.walk := by
  rw [Model.mem_walk hm.toLinked]
  constructor
  · intro hw
    by_contra hn
    simp [isWrapper_of_run hm h hc hn] at hw
  · intro hlt
    obtain ⟨ks, u, v, w, -, -, hp, ht, -, -, hr⟩ := run_stages hm h
    obtain ⟨_, hd⟩ := hr.decl_eq hm.toLinked (fun q => (hm.prop q).reference) hlt
    obtain ⟨_, _, hd'⟩ := (placeClasses_relabelled hp).decl c
    rw [ht, hd', hd]
    exact hm.isWrapper c

theorem mem_walk_of_run (hm : s.model.Described) (h : pass.run.run s = .ok result t)
    (hc : c ∈ s.model.walk) : c ∈ t.model.walk :=
  ((reshaped_of_described hm h).perm_walk hm.toLinked).mem_iff.mpr (List.mem_append_left _ hc)

theorem customization_eq_of_run (hm : s.model.Described) (h : pass.run.run s = .ok result t)
    (hc : c ∈ s.model.walk) :
    (t.model.decl c).customization = (s.model.decl c).customization := by
  obtain ⟨ks, u, v, w, -, -, hp, ht, -, -, hr⟩ := run_stages hm h
  obtain ⟨_, hdecl⟩ := hr.decl_eq hm.toLinked (fun q => (hm.prop q).reference)
    ((Model.mem_walk hm.toLinked).mp hc)
  obtain ⟨_, _, hlabel⟩ := (placeClasses_relabelled hp).decl c
  rw [ht, hlabel, hdecl]

theorem customization_eq_null_of_run (hm : s.model.Described) (h : pass.run.run s = .ok result t)
    (hc : c ∈ t.model.walk) (hn : c ∉ s.model.walk) :
    (t.model.decl c).customization = .null := by
  obtain ⟨ks, u, v, w, -, -, hp, ht, -, -, hr⟩ := run_stages hm h
  have href (q) := (hm.prop q).reference
  have hrel := placeClasses_relabelled hp
  obtain ⟨_, _, hlabel⟩ := hrel.decl c
  rw [ht, hrel.walk_eq, Model.mem_walk (hr.reshaped hm.toLinked href).linked] at hc
  rw [Model.mem_walk hm.toLinked] at hn
  rw [ht, hlabel]
  exact hr.customization_eq_null hm.toLinked href (Nat.le_of_not_lt hn) hc

end Pass
end Enfold
