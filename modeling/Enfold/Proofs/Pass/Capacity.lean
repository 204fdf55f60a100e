import Mathlib.Combinatorics.Enumerative.DoubleCounting
import Enfold.Proofs.Pass.Uniqueness

/-! # Suffixes do not run out

A name is out of suffixes only where as many different names are taken as there are to try. Each
name that is taken stands for a class or for a property of one class, so a limit that is no smaller
than the number of all classes in the end, and of the other properties of a class, is never met.
-/

namespace Enfold

open PassM

variable {n : Naming} {m m' : Model} {s t : PassState} {c d : ClassId} {k : Candidate}
  {done rest : List ClassId} {rs : List Record} {p : Pass} {limit : Int}

def Model.multiValued (m : Model) : List PropertyId :=
  m.walkProperties.filter fun p => (m.prop p).isMultiValued

def Failure.Exhausts (e : Failure) : Prop :=
  ∃ name scope limit, e = .name (.exhausted name scope limit)

theorem Failure.not_exhausts {e : Failure} (h : ∀ x, e ≠ .name x) : ¬ e.Exhausts :=
  fun ⟨_, _, _, he⟩ => h _ he

/-! ### Names that are taken -/

section Taken

variable {taken : List String} {e : Failure}

theorem claimName_exhausts {name : String} {scope : Option String}
    (hl : n.maxSuffix.asInt? = some limit) (he : e.Exhausts)
    (h : (claimName n.maxSuffix name taken scope).run s = .error e t) :
    Naming.attempts name limit.toNat ⊆ taken := by
  obtain ⟨a, b, l, rfl⟩ := he
  unfold claimName at h
  rcases bind_eq_error.mp h with h | ⟨⟨x, r⟩, u, -, h⟩
  · obtain ⟨y, hy, e, -⟩ := require_eq_error.mp h
    cases e
    obtain ⟨i, hi, hsub⟩ := Naming.disambiguate_exhausted hy
    obtain rfl := Option.some.inj (hl.symm.trans hi)
    exact hsub
  · cases h

/-- Where no suffix is left, more names are taken than the limit says. -/
theorem lt_length_of_attempts_subset {name : String}
    (h : Naming.attempts name limit.toNat ⊆ taken) : limit < taken.length := by
  have hle := (List.subperm_of_subset (Naming.nodup_attempts name limit.toNat) h).length_le
  rw [Naming.attempts, List.length_cons, List.length_map, List.length_range] at hle
  omega

end Taken

theorem Model.length_namesInScope_le (m : Model) (package : Option String)
    (parent : Option ClassId) : (m.namesInScope package parent).length ≤ m.classes.size := by
  have hids (f : ClassId → Bool) : (m.classIds.filter f).length ≤ m.classes.size := by
    have := List.length_filter_le f m.classIds
    simpa [classIds] using this
  unfold namesInScope
  cases parent with
  | some c =>
    rw [List.length_map]
    exact hids _
  | none =>
    rw [List.length_map]
    exact Nat.le_trans (List.length_filter_le _ _) (hids _)

namespace Candidate

variable {e : Failure}

theorem lt_of_claimClassName_exhausts (hl : n.maxSuffix.asInt? = some limit) (he : e.Exhausts)
    (h : (k.claimClassName n).run s = .error e t) : limit < s.model.classes.size := by
  unfold claimClassName at h
  rw [run_get_bind] at h
  rcases bind_eq_error.mp h with h | ⟨derived, u, -, h⟩
  · obtain ⟨y, hy, rfl, -⟩ := require_eq_error.mp h
    obtain ⟨a, b, l, e⟩ := he
    obtain ⟨rfl, -⟩ := Naming.wrapperClassName_error hy
    cases e
  · split at h
    · cases h
    · have hlt := lt_length_of_attempts_subset (claimName_exhausts hl he h)
      have := s.model.length_namesInScope_le (s.model.decl k.owner).package k.parent?
      omega

theorem lt_of_claimReferenceField_exhausts {className : String}
    (hl : n.maxSuffix.asInt? = some limit) (hk : k.prop ∈ (s.model.decl k.owner).properties)
    (he : e.Exhausts) (h : (k.claimReferenceField n className).run s = .error e t) :
    limit + 1 < (s.model.decl k.owner).properties.length := by
  unfold claimReferenceField at h
  rw [run_get_bind] at h
  have hlt := lt_length_of_attempts_subset (claimName_exhausts hl he h)
  have hothers : ((s.model.decl k.owner).properties.filter (· ≠ k.prop)).length <
      (s.model.decl k.owner).properties.length :=
    List.length_filter_lt_length_iff_exists.mpr ⟨k.prop, hk, by simp⟩
  rw [List.length_map] at hlt
  omega

theorem lt_of_synthesize_exhausts (hl : n.maxSuffix.asInt? = some limit)
    (hk : k.prop ∈ (s.model.decl k.owner).properties) (he : e.Exhausts)
    (h : (k.synthesize n).run s = .error e t) : limit < s.model.classes.size ∨
      limit + 1 < (s.model.decl k.owner).properties.length := by
  unfold synthesize at h
  rw [run_get_bind] at h
  split at h
  · next w _ =>
    -- A candidate that is dropped needs no name.
    have ha : Avoids Failure.Exhausts (k.dropInherited w) :=
      dropInherited_avoids (fun _ => Failure.not_exhausts (by simp))
        (fun _ => Failure.not_exhausts (by simp)) (fun _ => Failure.not_exhausts (by simp)) ..
    exact absurd he (ha.not_bad h)
  rcases bind_eq_error.mp h with h | ⟨plan, u, -, h⟩
  · rcases bind_eq_error.mp h with h | ⟨className, u, hc, h⟩
    · exact Or.inl (lt_of_claimClassName_exhausts hl he h)
    rcases bind_eq_error.mp h with h | ⟨field, v, -, h⟩
    · have hu := claimClassName_ok hc
      rw [← hu] at hk ⊢
      exact Or.inr (lt_of_claimReferenceField_exhausts hl hk he h)
    · cases h
  · have ha : Avoids Failure.Exhausts (k.wrap plan) :=
      wrap_avoids (fun _ => Failure.not_exhausts (by simp))
        (fun _ => Failure.not_exhausts (by simp)) (fun _ => Failure.not_exhausts (by simp)) ..
    exact absurd he (ha.not_bad h)

end Candidate

/-! ### Names that are taken in a scope -/

/-- A class beside another has a name, or a class has claimed it by another route. -/
def Model.Takes (m : Model) (c : ClassId) (name : String) (d : ClassId) : Prop :=
  m.scope d = m.scope c ∧ (m.decl d).name = name ∨
    m.qualifiedName d = m.stem c ++ name ∧ Pointless name

/-- A class makes no more than one name taken. -/
theorem Model.Takes.unique (hm : m.Linked) {x y : String} (hx : m.Takes c x d)
    (hy : m.Takes c y d) : x = y := by
  rcases hx with ⟨hs, rfl⟩ | ⟨hq, hn⟩
  · rcases hy with ⟨-, rfl⟩ | ⟨hq, hn⟩
    · rfl
    · exact name_eq_of_stem hm hs hq hn
  · rcases hy with ⟨hs, rfl⟩ | ⟨hq', -⟩
    · exact (name_eq_of_stem hm hs hq hn).symm
    · exact (String.append_right_inj _).mp (hq.symm.trans hq')

theorem Model.Linked.length_le_of_subset_takenBeside (hm : m.Linked) {xs : List String}
    (hn : xs.Nodup) (hdone : done ⊆ m.walk)
    (hx : xs ⊆ m.takenBeside c (done.map m.qualifiedName)) : xs.length ≤ m.walk.length := by
  rw [← List.toFinset_card_of_nodup hn, ← List.toFinset_card_of_nodup (nodup_walk hm)]
  apply Finset.card_le_card_of_forall_subsingleton (m.Takes c)
  · intro x hmem
    rcases mem_takenBeside_iff.mp (hx (List.mem_toFinset.mp hmem)) with
      ⟨d, hd, hs, -, hname⟩ | ⟨hq, hp⟩
    · exact ⟨d, List.mem_toFinset.mpr hd, Or.inl ⟨hs, hname⟩⟩
    · obtain ⟨d, hd, e⟩ := List.mem_map.mp hq
      exact ⟨d, List.mem_toFinset.mpr (hdone hd), Or.inr ⟨e, hp⟩⟩
  · rintro d - x ⟨-, hx⟩ y ⟨-, hy⟩
    exact hx.unique hm hy

theorem Claimed.lt_of_placeClass_exhausts {a : PlacementState} {e : Failure}
    (hl : n.maxSuffix.asInt? = some limit) (h : Claimed s.model done a.claimed)
    (hw : s.model.walk = done ++ c :: rest) (he : e.Exhausts)
    (hp : (Enfold.placeClass n a c).run s = .error e t) : limit < s.model.walk.length := by
  unfold Enfold.placeClass renameCollision at hp
  rw [run_get_bind] at hp
  split at hp
  · rcases bind_eq_error.mp hp with hp | ⟨_, u, -, hp⟩
    · rw [run_get_bind] at hp
      rcases bind_eq_error.mp hp with hp | ⟨name, u, -, hp⟩
      · have hsub := claimName_exhausts hl he hp
        rw [h.claimed_eq] at hsub
        have hle := h.linked.length_le_of_subset_takenBeside (Naming.nodup_attempts _ _)
          (by rw [hw]; exact List.subset_append_left _ _) hsub
        rw [Naming.attempts, List.length_cons, List.length_map, List.length_range] at hle
        omega
      · cases hp
    · cases hp
  · cases hp

/-! ### Runs -/

theorem Model.Linked.perm_walk (hm : m.Linked) : m.walk.Perm m.classIds :=
  (List.perm_ext_iff_of_nodup (nodup_walk hm) (nodup_classIds m)).mpr fun c => by
    rw [mem_walk hm, mem_classIds]

theorem Model.Linked.length_walk (hm : m.Linked) : m.walk.length = m.classes.size := by
  simpa [classIds] using hm.perm_walk.length_eq

theorem Customization.length_candidates_le (z : Customization) (hm : m.Linked) :
    (z.candidates m).length ≤ m.multiValued.length := by
  rw [← List.length_map Candidate.prop]
  refine (List.subperm_of_subset (nodup_candidates hm) fun p hp => ?_).length_le
  obtain ⟨k, hk, rfl⟩ := List.mem_map.mp hp
  obtain ⟨hmem, hv, -⟩ := of_mem_candidates hk
  have hc := (Model.mem_walk hm).mpr (Model.class_lt_of_mem hmem)
  exact List.mem_filter.mpr ⟨Model.mem_walkProperties hc hmem, hv⟩

namespace Pass

variable {u v : PassState} {ks : List Candidate} {e : Failure}

theorem lt_of_synthesizeAll_exhausts (hm : s.model.Linked)
    (hl : p.naming.maxSuffix.asInt? = some limit) (hc : p.choose.run s = .ok ks u) (he : e.Exhausts)
    (h : (synthesizeAll p.naming ks).run u = .error e t) :
    limit < s.model.walk.length + s.model.multiValued.length ∨
      ∃ c ∈ s.model.walk, limit + 1 < (s.model.decl c).properties.length := by
  -- The candidate meets the classes of the walk and a wrapper for each candidate before it.
  obtain ⟨rs, k, rest, x, hsplit, -, hnow, hk, hfail⟩ := synthesizeAll_eq_error hm hc h
  have hlength := congrArg List.length hsplit
  rw [List.length_append, List.length_map, List.length_cons] at hlength
  obtain ⟨rfl, -⟩ := choose_ok hc
  have hcandidates := Customization.length_candidates_le ⟨p.options, p.control⟩ hm
  have howner := Model.class_lt_of_mem hk.mem
  obtain ⟨ps, hps, hdecl⟩ := hnow.decl howner
  have hsize := hnow.size_le_add
  rcases Candidate.lt_of_synthesize_exhausts hl (hnow.stands hk) he hfail with hmore | hmore
  · left
    rw [hm.length_walk]
    omega
  · right
    rw [hdecl] at hmore
    dsimp only at hmore
    exact ⟨k.owner, (Model.mem_walk hm).mpr howner, by omega⟩

theorem lt_of_placeClasses_exhausts (hm : s.model.Linked)
    (hl : p.naming.maxSuffix.asInt? = some limit) (hc : p.choose.run s = .ok ks u)
    (hs : (synthesizeAll p.naming ks).run u = .ok rs v) (he : e.Exhausts)
    (h : (placeClasses p.naming).run v = .error e t) :
    limit < s.model.walk.length + s.model.multiValued.length := by
  obtain ⟨hrs, hnow⟩ := advanced_of_choose hm hc hs
  obtain ⟨done, c, rest, a, y, hsplit, hwalk, hy, hfail⟩ := placeClasses_eq_error hnow.linked h
  have hmore := hy.lt_of_placeClass_exhausts hl hsplit he hfail
  obtain ⟨rfl, -⟩ := choose_ok hc
  have hcandidates := Customization.length_candidates_le ⟨p.options, p.control⟩ hm
  have hlen := congrArg List.length hrs
  have hsize := hnow.size_le_add
  rw [hwalk, hnow.linked.length_walk] at hmore
  rw [List.length_map] at hlen
  rw [hm.length_walk]
  omega

/-- A limit that is no smaller than the classes and properties with many values, and hardly smaller
than the properties of any class, is never met. -/
theorem ne_exhausted_of_run (hm : s.model.Linked) (hl : p.naming.maxSuffix.asInt? = some limit)
    (hclasses : (s.model.walk.length + s.model.multiValued.length : Int) ≤ limit)
    (hproperties : ∀ c ∈ s.model.walk, ((s.model.decl c).properties.length : Int) ≤ limit + 1)
    (name scope tries : String) : p.run.run s ≠ .error (.name (.exhausted name scope tries)) t := by
  intro h
  have he : (Failure.name (.exhausted name scope tries)).Exhausts := ⟨_, _, _, rfl⟩
  generalize Failure.name (.exhausted name scope tries) = e at h he
  rcases run_eq_error h with h | ⟨ks, u, hc, h⟩
  · exact (choose_avoids (fun _ => Failure.not_exhausts (by simp)) p).not_bad h he
  rcases h with h | ⟨rs, v, hs, h | ⟨cs, w, -, h⟩⟩
  · rcases lt_of_synthesizeAll_exhausts hm hl hc he h with hmore | ⟨c, hmem, hmore⟩
    · omega
    · have := hproperties c hmem
      omega
  · have := lt_of_placeClasses_exhausts hm hl hc hs he h
    omega
  · exact (p.conclude_avoids (fun _ => Failure.not_exhausts (by simp))
      (fun _ => Failure.not_exhausts (by simp)) _).not_bad h he

theorem ne_exhausted_of_orders_run : ∃ m, Model.ofValue orders = .ok m ∧
    (m.walk.length + m.multiValued.length : Int) ≤ 5 ∧
      (∀ c ∈ m.walk, ((m.decl c).properties.length : Int) ≤ 5 + 1) ∧
      ∀ name scope tries t, (⟨{}, none, { maxSuffix := .int 5 }⟩ : Pass).run.run { model := m } ≠
        .error (.name (.exhausted name scope tries)) t := by
  obtain ⟨m, hm⟩ : ∃ m, (Model.ofValue orders).toOption = some m :=
    Option.isSome_iff_exists.mp (by decide +kernel)
  have hsizes : (Model.ofValue orders).toOption.map (fun m =>
      decide ((m.walk.length + m.multiValued.length : Int) ≤ 5) &&
        m.walk.all fun c => decide (((m.decl c).properties.length : Int) ≤ 5 + 1)) = some true := by
    decide +kernel
  rw [hm, Option.map_some, Option.some.injEq, Bool.and_eq_true, List.all_eq_true] at hsizes
  simp only [decide_eq_true_eq] at hsizes
  obtain ⟨hclasses, hproperties⟩ := hsizes
  have hm := toOption_eq_some.mp hm
  refine ⟨m, hm, hclasses, hproperties, fun name scope tries t => ?_⟩
  exact ne_exhausted_of_run (p := ⟨{}, none, { maxSuffix := .int 5 }⟩) (s := { model := m })
    (Model.described_ofValue hm).toLinked rfl hclasses hproperties name scope tries

end Pass
end Enfold
