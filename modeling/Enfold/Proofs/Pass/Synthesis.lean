import Enfold.Proofs.Naming.Suffix
import Enfold.Proofs.Pass.Selection
import Enfold.Proofs.Pass.Wrapping

/-! # What synthesis does with a candidate

A candidate is either taken out of its class, or wrapped by a plan that fits it. The plan leaves
the model alone, and its reference field is one that no other property of the owner has.
-/

namespace Enfold

open PassM

variable {k : Candidate} {n : Naming} {s t : PassState} {w : ClassId} {plan : WrapperPlan}
  {record : Record}

theorem claimName_ok {limit : Value} {name free : String} {taken : List String}
    {scope : Option String} (h : (claimName limit name taken scope).run s = .ok free t) :
    t.model = s.model ∧ free ∉ taken ∧ (free = name ∨ ∃ i : Nat, free = name ++ toString i) := by
  unfold claimName at h
  obtain ⟨⟨a, r⟩, hr, h⟩ := require_bind_eq_ok.mp h
  cases h
  exact ⟨rfl, Naming.disambiguate_ok hr⟩

theorem claimName_keeps {γ : Type} (view : PassState → γ)
    (hv : ∀ s ns, view { s with counters := { s.counters with renames := ns } } = view s)
    (limit : Value) (name : String) (taken : List String) (scope : Option String) :
    Keeps view (claimName limit name taken scope) :=
  (Keeps.require _ _).bind fun _ => (Keeps.modify fun s => hv s _).bind fun _ => .pure _

namespace Candidate

theorem claimClassName_ok {name : String} (h : (k.claimClassName n).run s = .ok name t) :
    t.model = s.model := by
  unfold claimClassName at h
  rw [run_get_bind, require_bind_eq_ok] at h
  obtain ⟨derived, -, h⟩ := h
  split at h
  · cases h
    rfl
  · exact (claimName_ok h).1

theorem claimReferenceField_ok {className field : String}
    (h : (k.claimReferenceField n className).run s = .ok field t) :
    t.model = s.model ∧ ∀ q ∈ (s.model.decl k.owner).properties, q ≠ k.prop →
      (s.model.prop q).field ≠ field := by
  unfold claimReferenceField at h
  rw [run_get_bind] at h
  obtain ⟨hm, hn, -⟩ := claimName_ok h
  refine ⟨hm, fun q hq hqk e => hn ?_⟩
  exact List.mem_map.mpr ⟨q, List.mem_filter.mpr ⟨hq, by simpa using hqk⟩, e⟩

/-- The plan puts the wrapper where it belongs, with a field that is not in use. -/
structure Planned (n : Naming) (m : Model) (k : Candidate) (plan : WrapperPlan) : Prop where
  fits : m.Fits k plan
  itemField : plan.itemField = n.itemFieldName (m.prop k.prop).name k.directive.fieldName
  className : ∃ s t, s.model = m ∧ (k.claimClassName n).run s = .ok plan.className t
  field_ne : ∀ q ∈ (m.decl k.owner).properties, q ≠ k.prop →
    (m.prop q).field ≠ plan.referenceField

theorem plan_ok (h : (k.plan n).run s = .ok plan t) :
    t.model = s.model ∧ Planned n s.model k plan := by
  unfold Candidate.plan at h
  obtain ⟨className, u, hc, h⟩ := bind_eq_ok.mp h
  obtain ⟨field, v, hf, h⟩ := bind_eq_ok.mp h
  rw [run_get_bind] at h
  cases h
  have hu := claimClassName_ok hc
  obtain ⟨ht, hfield⟩ := claimReferenceField_ok hf
  rw [hu] at ht hfield
  exact ⟨ht, ⟨rfl, by rw [ht]⟩, by rw [ht], ⟨s, u, rfl, hc⟩, hfield⟩

theorem plan_keeps {γ : Type} (view : PassState → γ)
    (hv : ∀ s ns, view { s with counters := { s.counters with renames := ns } } = view s)
    (k : Candidate) (n : Naming) : Keeps view (k.plan n) := by
  unfold Candidate.plan claimClassName claimReferenceField
  refine Keeps.bind ?_ fun _ => Keeps.bind ?_ fun _ => Keeps.get.bind fun _ => .pure _
  · refine Keeps.get.bind fun s => (Keeps.require _ _).bind fun x => ?_
    split
    · exact .pure _
    · exact claimName_keeps view hv ..
  · exact Keeps.get.bind fun _ => claimName_keeps view hv ..

/-! ### What is done with a plan -/

theorem run_dropInherited (hm : s.model.Linked) {c : ClassId}
    (hk : k.prop ∈ (s.model.decl c).properties) : (k.dropInherited w).run s =
      .ok { candidate := k, state := .finalized, wrapper := some w, deleted := true }
        { s with
          model := s.model.unlink c k.prop
          counters := { s.counters with deletions := s.counters.deletions + 1 }
          notices := s.notices ++
            [.duplicateRemoved k.path ((s.model.unlink c k.prop).qualifiedName w)] } := by
  unfold dropInherited
  change (require id (.ok _ : Except Failure Record) >>= _ : PassM Record).run s = _
  rw [run_require_ok_bind, run_get_bind, Model.deleteProperty_of_mem hm hk]
  rfl

def headNotices (k : Candidate) (x : Property) : List Notice :=
  if x.kind = .reference && x.substitutes.isEmpty then [.headWithoutMembers k.path] else []

theorem run_wrap_of_relink {m : Model} {r : PropertyId}
    (h : (s.model.addWrapper k plan).1.relink k ⟨s.model.classes.size⟩ plan = .ok (m, r)) :
    (k.wrap plan).run s =
      .ok { candidate := k, state := .finalized, wrapper := some ⟨s.model.classes.size⟩
            reference := some r, explicitName := plan.explicitName }
        { s with
          model := (m.implementWrapper k.owner ⟨s.model.classes.size⟩ r).listInEpisode
            ⟨s.model.classes.size⟩
          counters := { s.counters with modifications := s.counters.modifications + 1 }
          wrapped := Assoc.put (k.owner, (m.prop k.prop).name) ⟨s.model.classes.size⟩ s.wrapped
          notices := s.notices ++ headNotices k (m.prop k.prop) } := by
  unfold wrap
  rw [run_get_bind]
  dsimp only
  rw [run_setModel_bind]
  change (require id (.ok _ : Except Failure Record) >>= _ : PassM Record).run _ = _
  rw [run_require_ok_bind, Model.snd_addWrapper, h, run_require_ok_bind]
  dsimp only
  rw [run_setModel_bind, run_reportIf_bind]
  rfl

/-- A plan that fits can always be carried out. -/
theorem run_wrap (hm : s.model.Linked) (hk : k.prop ∈ (s.model.decl k.owner).properties)
    (hf : s.model.Fits k plan) {r : PropertyId} {m : Model} (hw : w = ⟨s.model.classes.size⟩)
    (hr : r = ⟨s.model.properties.size + (s.model.extras k.prop).length⟩)
    (he : m = (s.model.addWrapper k plan).1.rewire k w plan) : (k.wrap plan).run s =
      .ok { candidate := k, state := .finalized, wrapper := some w, reference := some r
            explicitName := plan.explicitName }
        { s with
          model := (m.implementWrapper k.owner w r).listInEpisode w
          counters := { s.counters with modifications := s.counters.modifications + 1 }
          wrapped := Assoc.put (k.owner, (s.model.prop k.prop).name) w s.wrapped
          notices := s.notices ++ headNotices k (s.model.prop k.prop) } := by
  subst hw hr he
  have hc := Model.class_lt_of_mem hk
  have hne : (⟨s.model.classes.size⟩ : ClassId) ≠ k.owner := by
    intro e
    rw [← e] at hc
    exact absurd hc (Nat.lt_irrefl _)
  have hold : (s.model.addWrapper k plan).1.decl k.owner = s.model.decl k.owner :=
    Model.decl_addWrapper_of_ne (Ne.symm hne)
  have hmoved := (Model.wraps_rewire hm hf hk).moved
  rw [run_wrap_of_relink (Model.relink_of_mem (hm.addWrapper hf hc) (by rwa [hold])
    (by simp [Model.addWrapper]) hne), hmoved]
  rfl

structure Drops (k : Candidate) (s : PassState) (record : Record) (t : PassState) : Prop where
  inherited : ∃ w, k.inherited? s = some w ∧
    record = { candidate := k, state := .finalized, wrapper := some w, deleted := true }
  model : t.model = s.model.unlink k.owner k.prop
  wrapped : t.wrapped = s.wrapped
  deletions : t.counters.deletions = s.counters.deletions + 1

/-- The candidate is wrapped by a plan, since no base class has its element wrapped. -/
structure Encloses (n : Naming) (k : Candidate) (plan : WrapperPlan) (s : PassState)
    (record : Record) (t : PassState) (w : ClassId) (r : PropertyId) : Prop where
  inherited : k.inherited? s = none
  planned : Planned n s.model k plan
  record : record = { candidate := k, state := .finalized, wrapper := some w
                      reference := some r, explicitName := plan.explicitName }
  wrapper_eq : w = ⟨s.model.classes.size⟩
  reference_eq : r = ⟨s.model.properties.size + (s.model.extras k.prop).length⟩
  model : t.model = (((s.model.addWrapper k plan).1.rewire k w plan).implementWrapper
    k.owner w r).listInEpisode w
  wrapped : t.wrapped = Assoc.put (k.owner, (s.model.prop k.prop).name) w s.wrapped
  deletions : t.counters.deletions = s.counters.deletions

theorem Encloses.wraps {r : PropertyId} (h : Encloses n k plan s record t w r)
    (hm : s.model.Linked) (hk : k.prop ∈ (s.model.decl k.owner).properties) :
    s.model.Wraps k plan t.model w r := by
  have hne : k.owner ≠ w := by
    intro e
    have hc := Model.class_lt_of_mem hk
    rw [e, h.wrapper_eq] at hc
    exact absurd hc (Nat.lt_irrefl _)
  have hw := Model.wraps_rewire hm h.planned.fits hk
  rw [← h.reference_eq, ← h.wrapper_eq] at hw
  rw [h.model]
  exact (hw.implementWrapper hne).listInEpisode hne

/-- A candidate is dropped for a base class, or wrapped by its plan. -/
theorem synthesize_ok (hm : s.model.Linked) (hk : k.prop ∈ (s.model.decl k.owner).properties)
    (h : (k.synthesize n).run s = .ok record t) :
    k.Drops s record t ∨ ∃ plan w r, Encloses n k plan s record t w r := by
  unfold synthesize at h
  rw [run_get_bind] at h
  split at h
  · next w hw =>
    rw [run_dropInherited hm hk] at h
    cases h
    exact Or.inl ⟨⟨w, hw, rfl⟩, rfl, rfl, rfl⟩
  · next hw =>
    obtain ⟨plan, u, hp, h⟩ := bind_eq_ok.mp h
    have hwrapped := (plan_keeps PassState.wrapped (fun _ _ => rfl) k n).of_ok hp
    have hcount := (plan_keeps (fun s => s.counters.deletions) (fun _ _ => rfl) k n).of_ok hp
    obtain ⟨hu, hp⟩ := plan_ok hp
    rw [run_wrap (hu ▸ hm) (hu ▸ hk) (hu ▸ hp.fits) rfl rfl rfl, hu] at h
    cases h
    exact Or.inr ⟨plan, _, _, hw, hp, rfl, rfl, rfl, rfl, by rw [← hwrapped], hcount⟩

theorem candidate_of_synthesize (hm : s.model.Linked)
    (hk : k.prop ∈ (s.model.decl k.owner).properties)
    (h : (k.synthesize n).run s = .ok record t) : record.candidate = k := by
  rcases synthesize_ok hm hk h with h | ⟨plan, w, r, h⟩
  · obtain ⟨w, -, hr⟩ := h.inherited
    rw [hr]
  · rw [h.record]

end Candidate

/-! ### The steps of a run -/

/-- A candidate of the first model that has not been dealt with. -/
structure Candidate.Fresh (m : Model) (rs : List Record) (k : Candidate) : Prop where
  mem : k.prop ∈ (m.decl k.owner).properties
  ne : ∀ r ∈ rs, r.candidate.prop ≠ k.prop

/-- The models that a run goes through, one record a step. -/
inductive Rewriting (n : Naming) (m : Model) : List Record → Model → Prop where
  | start : Rewriting n m [] m
  | drop {rs : List Record} {m' : Model} {r : Record} :
    Rewriting n m rs m' → r.candidate.Fresh m rs → r.deleted = true →
      Rewriting n m (rs ++ [r]) (m'.unlink r.candidate.owner r.candidate.prop)
  | wrap {rs : List Record} {m' m'' : Model} {r : Record} {w : ClassId} {q : PropertyId}
      {plan : WrapperPlan} :
    Rewriting n m rs m' → r.candidate.Fresh m rs → r.deleted = false → r.wrapper = some w →
      r.reference = some q → r.candidate.Planned n m' plan → m'.Wraps r.candidate plan m'' w q →
      Rewriting n m (rs ++ [r]) m''

/-- The states that a run goes through while it makes its records. -/
inductive Synthesizing (n : Naming) (s : PassState) : List Record → PassState → Prop where
  | start : Synthesizing n s [] s
  | step {rs : List Record} {t u : PassState} {r : Record} :
    Synthesizing n s rs t → r.candidate.Fresh s.model rs →
      (r.candidate.synthesize n).run t = .ok r u → Synthesizing n s (rs ++ [r]) u

end Enfold
