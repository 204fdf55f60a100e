import Enfold.Proofs.Pass.Synthesis

/-! # How far a run has come

The steps of a run give classes lists that are no longer than those they had, and add the wrappers
behind all classes. Whatever a linked model refers to already, a candidate that no step has dealt
with stands in the list of its owner.
-/

namespace Enfold

def wrappersOf (rs : List Record) : List ClassId :=
  rs.filterMap fun r => if r.deleted then none else r.wrapper

/-- What the steps that have led to some records keep of a model. -/
structure Advanced (m : Model) (rs : List Record) (m' : Model) : Prop where
  linked : m'.Linked
  classIds : m'.classIds = m.classIds ++ wrappersOf rs
  decl : ∀ {c}, c.index < m.classes.size → ∃ ps, ps.length ≤ (m.decl c).properties.length ∧
    m'.decl c = { m.decl c with properties := ps }
  stands : ∀ {k : Candidate}, k.Fresh m rs → k.prop ∈ (m'.decl k.owner).properties

variable {n : Naming} {m m' m'' : Model} {rs : List Record} {r : Record} {k : Candidate}
  {q : PropertyId} {c w : ClassId} {plan : WrapperPlan} {s t : PassState}

theorem Model.Wraps.classIds (h : m.Wraps k plan m' w q) : m'.classIds = m.classIds ++ [w] := by
  rw [Model.classIds, h.size, List.range_succ, List.map_append]
  simp [Model.classIds, h.wrapper_eq]

theorem Candidate.Fresh.of_append (h : k.Fresh m (rs ++ [r])) :
    k.Fresh m rs ∧ r.candidate.prop ≠ k.prop :=
  ⟨⟨h.mem, fun r' hr => h.ne r' (List.mem_append_left _ hr)⟩, h.ne r (by simp)⟩

theorem mem_wrappersOf :
    w ∈ wrappersOf rs ↔ ∃ r ∈ rs, r.deleted = false ∧ r.wrapper = some w := by
  simp [wrappersOf]

theorem wrappersOf_append (rs rs' : List Record) :
    wrappersOf (rs ++ rs') = wrappersOf rs ++ wrappersOf rs' :=
  List.filterMap_append

namespace Advanced

theorem size_le (h : Advanced m rs m') : m.classes.size ≤ m'.classes.size := by
  rw [Model.size_eq_of_classIds h.classIds]
  exact Nat.le_add_right _ _

theorem start (hm : m.Linked) : Advanced m [] m :=
  ⟨hm, (List.append_nil _).symm, fun _ => ⟨_, Nat.le_refl _, rfl⟩, Candidate.Fresh.mem⟩

theorem drop (h : Advanced m rs m') (hk : r.candidate.Fresh m rs) (hd : r.deleted = true) :
    Advanced m (rs ++ [r]) (m'.unlink r.candidate.owner r.candidate.prop) := by
  have hmem := h.stands hk
  have ho := Model.class_lt_of_mem hmem
  refine ⟨h.linked.unlink hmem, ?_, fun {c} hc => ?_, fun {k} hfresh => ?_⟩
  · rw [Model.classIds, Model.size_unlink, ← Model.classIds, h.classIds]
    simp [wrappersOf, hd]
  · obtain ⟨ps, hps, hdecl⟩ := h.decl hc
    rw [Model.decl_unlink ho]
    split
    · next e =>
      rw [← e, hdecl]
      exact ⟨_, Nat.le_trans List.length_erase_le hps, rfl⟩
    · exact ⟨ps, hps, hdecl⟩
  · obtain ⟨hfresh, hne⟩ := hfresh.of_append
    have hold := h.stands hfresh
    rw [Model.decl_unlink ho]
    split
    · next e => exact (List.mem_erase_of_ne hne.symm).mpr (e ▸ hold)
    · exact hold

theorem wrap (h : Advanced m rs m') (hd : r.deleted = false) (hrw : r.wrapper = some w)
    (hw : m'.Wraps r.candidate plan m'' w q) : Advanced m (rs ++ [r]) m'' := by
  have hne {c : ClassId} (hc : c.index < m'.classes.size) : c ≠ w := by
    rintro rfl
    exact hw.not_lt hc
  refine ⟨hw.linked, ?_, fun {c} hc => ?_, fun {k} hfresh => ?_⟩
  · rw [hw.classIds, h.classIds]
    simp [wrappersOf, hd, hrw]
  · obtain ⟨ps, hps, hdecl⟩ := h.decl hc
    by_cases hco : c = r.candidate.owner
    · refine ⟨m'.substituted r.candidate q, ?_, ?_⟩
      · rw [Model.substituted, List.length_map, ← hco, hdecl]
        exact hps
      · rw [hco, hw.owner, ← hco, hdecl]
    · exact ⟨ps, hps, by rw [hw.class_eq (hne (Nat.lt_of_lt_of_le hc h.size_le)) hco, hdecl]⟩
  · obtain ⟨hfresh, hne'⟩ := hfresh.of_append
    have hold := h.stands hfresh
    by_cases hco : k.owner = r.candidate.owner
    · rw [hco, hw.owner]
      exact List.mem_map.mpr ⟨k.prop, hco ▸ hold, if_neg hne'.symm⟩
    · rwa [hw.class_eq (hne (Model.class_lt_of_mem hold)) hco]

theorem size_le_add (h : Advanced m rs m') : m'.classes.size ≤ m.classes.size + rs.length := by
  rw [Model.size_eq_of_classIds h.classIds]
  exact Nat.add_le_add_left (List.length_filterMap_le _ _) _

theorem mem_walk_iff (h : Advanced m rs m') (hm : m.Linked) :
    c ∈ m'.walk ↔ c ∈ m.walk ∨ c ∈ wrappersOf rs := by
  rw [Model.mem_walk h.linked, Model.mem_walk hm, ← Model.mem_classIds, h.classIds,
    List.mem_append, Model.mem_classIds]

theorem notMem_walk (h : Advanced m rs m') (hm : m.Linked) (hw : w ∈ wrappersOf rs) :
    w ∉ m.walk := by
  intro hmem
  have hnodup := h.classIds ▸ Model.nodup_classIds m'
  have hold := Model.mem_classIds.mpr ((Model.mem_walk hm).mp hmem)
  exact (List.nodup_append.mp hnodup).2.2 w hold w hw rfl

theorem qualifiedName_eq (h : Advanced m rs m') (hm : m.Linked) (hc : c ∈ m.walk) :
    m'.qualifiedName c = m.qualifiedName c := by
  refine Model.qualifiedName_congr_of (P := (·.index < m.classes.size)) (fun {d} hd => ?_)
    (fun _ hp => hm.parent_lt_size hp) ((Model.mem_walk hm).mp hc)
  obtain ⟨ps, -, hdecl⟩ := h.decl hd
  rw [hdecl]
  exact ⟨rfl, rfl, rfl⟩

end Advanced

/-- The states of a run advance the model that it starts from. -/
theorem Synthesizing.advanced (h : Synthesizing n s rs t) (hm : s.model.Linked) :
    Advanced s.model rs t.model := by
  induction h with
  | start => exact .start hm
  | @step rs t u r _ hk hs ih =>
    have hmem := ih.stands hk
    rcases Candidate.synthesize_ok ih.linked hmem hs with h | ⟨plan, w, q, h⟩
    · obtain ⟨w, -, hr⟩ := h.inherited
      rw [h.model]
      exact ih.drop hk (by rw [hr])
    · exact ih.wrap (by rw [h.record]) (by rw [h.record]) (h.wraps ih.linked hmem)

section Traversal

variable {done rest ks : List Candidate}

theorem Candidate.fresh_of_map_eq (hk : k.prop ∈ (m.decl k.owner).properties)
    (hd : ((done ++ k :: rest).map Candidate.prop).Nodup) (hrs : rs.map Record.candidate = done) :
    k.Fresh m rs := by
  refine ⟨hk, fun r hr e => ?_⟩
  rw [← hrs, List.map_append, List.nodup_append] at hd
  exact hd.2.2 _ (List.mem_map_of_mem (List.mem_map_of_mem hr)) _ (by simp) e

/-- A traversal of the candidates goes through the states of a run. -/
theorem synthesizing_of_mapM (hm : s.model.Linked)
    (hk : ∀ k ∈ ks, k.prop ∈ (s.model.decl k.owner).properties)
    (hd : (ks.map Candidate.prop).Nodup)
    (h : (ks.mapM (Candidate.synthesize n)).run s = .ok rs t) :
    rs.map Record.candidate = ks ∧ Synthesizing n s rs t := by
  refine PassM.mapM_inv (t := t) (fun done rs u => rs.map Record.candidate = done ∧
    Synthesizing n s rs u) ?_ ⟨rfl, .start⟩ h
  rintro done k rest rs r u v rfl ⟨rfl, hrun⟩ hs
  have hfresh : k.Fresh s.model rs := Candidate.fresh_of_map_eq (hk k (by simp)) hd rfl
  have hnow := hrun.advanced hm
  obtain rfl := Candidate.candidate_of_synthesize hnow.linked (hnow.stands hfresh) hs
  exact ⟨by simp, hrun.step hfresh hs⟩

end Traversal

theorem synthesizeAll_ok {ks : List Candidate} (h : (synthesizeAll n ks).run s = .ok rs t) :
    ∃ u ns, (ks.mapM (Candidate.synthesize n)).run s = .ok rs u ∧ t = { u with notices := ns } := by
  unfold synthesizeAll at h
  obtain ⟨rs, u, hr, h⟩ := PassM.bind_eq_ok.mp h
  cases h
  exact ⟨u, _, hr, rfl⟩

end Enfold
