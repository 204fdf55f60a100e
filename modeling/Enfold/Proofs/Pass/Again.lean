import Enfold.Proofs.Customization.Validated
import Enfold.Proofs.Files
import Enfold.Proofs.Pass.Remains
import Enfold.Proofs.Pass.Uniqueness

/-! # Runs on what a run has made

A run leaves nothing to do. What it has not wrapped is not to be wrapped by the same customizations,
all annotations that are left can still be read, and no two classes share a name. So a second run
changes nothing.
-/

namespace Enfold

open PassM

variable {n : Naming} {m : Model} {s t u : PassState} {c : ClassId} {q : PropertyId}
  {z : Customization}

/-! ### Models that are settled -/

/-- No customization asks for a wrapper, and no two classes share a name. -/
structure Customization.Settles (z : Customization) (m : Model) : Prop where
  decides : z.Decides m
  candidates : z.candidates m = []
  nodup : (m.walk.map m.qualifiedName).Nodup

theorem foldlM_placeClass_of_nodup {cs : List ClassId} {a : PlacementState}
    (h : (a.claimed ++ cs.map s.model.qualifiedName).Nodup) : (cs.foldlM (placeClass n) a).run s =
      .ok ⟨a.claimed ++ cs.map s.model.qualifiedName, a.renamed⟩ s := by
  induction cs generalizing a with
  | nil => simp
  | cons c cs ih =>
    have hfree : s.model.qualifiedName c ∉ a.claimed := by
      intro hc
      exact (List.nodup_append.mp h).2.2 _ hc _ List.mem_cons_self rfl
    have hstep : (placeClass n a c).run s =
        .ok ⟨a.claimed ++ [s.model.qualifiedName c], a.renamed⟩ s := by
      unfold placeClass
      rw [run_get_bind, if_neg hfree]
      rfl
    rw [List.foldlM_cons, EStateM.run_bind, hstep]
    dsimp only
    rw [ih (by simpa using h)]
    simp

theorem placeClasses_of_nodup (h : (s.model.walk.map s.model.qualifiedName).Nodup) :
    (placeClasses n).run s = .ok [] s := by
  have hall : (s.model.walk.foldlM (placeClass n) {}).run s =
      .ok ⟨[] ++ s.model.walk.map s.model.qualifiedName, []⟩ s :=
    foldlM_placeClass_of_nodup (a := {}) (by simpa using h)
  unfold placeClasses
  rw [run_get_bind, EStateM.run_bind, hall]
  rfl

namespace Pass

variable {p : Pass} {result : PassResult}

theorem writeSummary_ok {v : Value} (h : (writeSummary v).run s = .ok () t) :
    ∃ path, Options.pathOf v = .ok path ∧ s.files.write path s.counters.text = .ok t.files := by
  unfold writeSummary at h
  rw [require_bind_eq_ok] at h
  obtain ⟨path, hp, h⟩ := h
  rw [run_get_bind, require_bind_eq_ok] at h
  obtain ⟨files, hf, h⟩ := h
  cases h
  exact ⟨path, hp, hf⟩

theorem exists_writeSummary {v : Value} {path : Path} {files : FileTree}
    (hp : Options.pathOf v = .ok path) (hf : s.files.write path s.counters.text = .ok files) :
    ∃ t, (writeSummary v).run s = .ok () t := by
  unfold writeSummary
  rw [hp, run_require_ok_bind, run_get_bind, hf, run_require_ok_bind]
  exact ⟨_, rfl⟩

theorem conclude_again {k k' : Counters} (h : (p.conclude k).run s = .ok () t)
    (hu : u.files = t.files) : ∃ w, (p.conclude k').run u = .ok () w := by
  rw [run_conclude] at h
  rw [run_conclude]
  split at h
  · next hs =>
    obtain ⟨path, hp, hw⟩ := writeSummary_ok h
    obtain ⟨files, hf⟩ := FileTree.write_again hw u.counters.text
    rw [← hu] at hf
    rw [if_pos hs]
    exact exists_writeSummary hp hf
  · next hs =>
    rw [if_neg hs]
    exact ⟨_, rfl⟩

theorem choose_of_settles (hz : Customization.Settles ⟨p.options, p.control⟩ s.model) :
    ∃ u, p.choose.run s = .ok [] u ∧ u.model = s.model ∧ u.files = s.files ∧
      u.counters.modifications = s.counters.modifications ∧
      u.counters.deletions = s.counters.deletions ∧ u.counters.renames = s.counters.renames := by
  obtain ⟨ks, u, hc⟩ := choose_isOk_iff.mpr hz.decides
  obtain ⟨hks, hmodel⟩ := choose_ok hc
  rw [hz.candidates] at hks
  subst hks
  have hfiles := (p.choose_keeps PassState.files fun _ _ _ => rfl).of_ok hc
  have hcounts := (p.choose_keeps (fun s : PassState => (s.counters.modifications,
    s.counters.deletions, s.counters.renames)) fun _ _ _ => rfl).of_ok hc
  simp only [Prod.mk.injEq] at hcounts
  exact ⟨u, hc, hmodel, hfiles, hcounts⟩

theorem run_synthesizeAll_nil : (synthesizeAll n []).run s = .ok [] { s with notices :=
    s.notices ++ [Notice.synthesized s.counters.modifications s.counters.deletions] } := rfl

/-- A run has nothing to do with a settled model. -/
theorem run_of_settles (hz : Customization.Settles ⟨p.options, p.control⟩ s.model)
    (hsummary : ∀ k (u : PassState), u.files = s.files → ∃ w, (p.conclude k).run u = .ok () w) :
    ∃ result t, p.run.run s = .ok result t ∧ t.model = s.model ∧ result.records = [] ∧
      result.renamed = [] ∧ result.counters.modifications = s.counters.modifications ∧
      result.counters.deletions = s.counters.deletions ∧
      result.counters.renames = s.counters.renames := by
  obtain ⟨u, hc, hmodel, hfiles, hcounts⟩ := choose_of_settles hz
  have hs := run_synthesizeAll_nil (n := p.naming) (s := u)
  generalize hv : ({ u with notices := _ } : PassState) = v at hs
  have hvmodel : v.model = s.model := by rw [← hv, hmodel]
  have hplace : (placeClasses p.naming).run v = .ok [] v := by
    apply placeClasses_of_nodup
    rw [hvmodel]
    exact hz.nodup
  obtain ⟨w, hw⟩ := hsummary v.counters v (by rw [← hv, hfiles])
  have hkeep : w.model = v.model := (p.conclude_keepsModel _).of_ok hw
  refine ⟨⟨[], [], v.counters⟩, w, ?_, hkeep.trans hvmodel, rfl, rfl, ?_⟩
  · refine bind_eq_ok.mpr ⟨_, _, hc, bind_eq_ok.mpr ⟨_, _, hs, bind_eq_ok.mpr ⟨_, _, hplace, ?_⟩⟩⟩
    rw [run_get_bind]
    exact bind_eq_ok.mpr ⟨_, _, hw, rfl⟩
  · rw [← hv]
    exact hcounts

/-! ### What a run leaves -/

section Left

variable (hm : s.model.Described) (hcontrol : p.control = none)
  (h : p.run.run s = .ok result t)

include h

theorem decides_of_run : Customization.Decides ⟨p.options, p.control⟩ s.model := by
  obtain ⟨ks, u, -, -, hc, -⟩ := run_ok h
  exact choose_isOk_iff.mp ⟨ks, u, hc⟩

include hm hcontrol

theorem validate_of_run : Customization.validate ⟨p.options, p.control⟩ t.model = .ok () := by
  have hvalid := (Customization.validate_eq_ok.mp (decides_of_run h).valid).2
  rw [Customization.validate_eq_ok]
  refine ⟨by simp [hcontrol], fun c hc => ⟨?_, fun q hq => ?_⟩⟩
  · by_cases hold : c ∈ s.model.walk
    · obtain ⟨x, hx⟩ := (hvalid c hold).1
      exact ⟨x, Customization.classSettings_of_eq (customization_eq_of_run hm h hold) hx⟩
    · exact ⟨{}, Customization.classSettings_of_null (customization_eq_null_of_run hm h hc hold)⟩
  · rcases (reshaped_of_described hm h).customization_cases hm.toLinked hq with
      hnull | ⟨d, hd, hsame⟩
    · exact ⟨{}, Customization.propertySettings_of_null hnull⟩
    · have hwalk := (Model.mem_walk hm.toLinked).mpr (Model.class_lt_of_mem hd)
      obtain ⟨x, hx⟩ := (hvalid d hwalk).2 q hd
      exact ⟨x, Customization.propertySettings_of_eq hsame hx⟩

theorem resolve_of_run (hc : c ∈ t.model.walk) (hw : (t.model.decl c).isWrapper = false)
    (hq : q ∈ (t.model.decl c).properties) (hv : (t.model.prop q).isMultiValued = true) :
    ∃ d, Customization.resolve ⟨p.options, p.control⟩ t.model q = .ok d ∧ d.wrap = false := by
  have hshape := reshaped_of_described hm h
  have hold := (isWrapper_eq_false_iff_of_run hm h hc).mp hw
  rcases hshape.of_mem_properties hm.toLinked ((Model.mem_walk hm.toLinked).mp hold) hq with
    ⟨hmem, hne, hsame⟩ | ⟨r, w, hset⟩
  · rw [hsame] at hv
    obtain ⟨d, hd⟩ := (decides_of_run h).resolve c hold (hm.isWrapper c) q hmem hv
    refine ⟨d, Customization.resolve_of_eq hcontrol (hm.mem_iff_owner.mp hmem)
      (hshape.linked.mem_iff_owner.mp hq) (customization_eq_of_run hm h hold)
      (by rw [hsame]) hd, ?_⟩
    · -- Had the run been told to wrap it, there would be a record of it.
      by_contra hwrap
      have hmem := Customization.mem_candidates hold (hm.isWrapper c) hmem hv hd
        (by simpa using hwrap)
      obtain ⟨ks, -, -, -, -, -, -, -, rfl, hrecords, -⟩ := run_stages hm h
      rw [← hrecords] at hmem
      obtain ⟨r, hr, he⟩ := List.mem_map.mp hmem
      exact hne r hr (by rw [he]; rfl)
  · rw [hset.isMultiValued_eq_false] at hv
    cases hv

/-- A run leaves another one nothing to do, unless classes share a name. -/
theorem settles_of_run (hn : (t.model.walk.map t.model.qualifiedName).Nodup) :
    Customization.Settles ⟨p.options, p.control⟩ t.model where
  decides := {
    valid := validate_of_run hm hcontrol h
    resolve := fun c hc hw q hq hv => by
      obtain ⟨d, hd, -⟩ := resolve_of_run hm hcontrol h hc hw hq hv
      exact ⟨d, hd⟩ }
  candidates := by
    rw [List.eq_nil_iff_forall_not_mem]
    intro k hk
    obtain ⟨c, hc, hk⟩ := List.mem_flatMap.mp hk
    obtain ⟨hw, q, hq, hk⟩ := Customization.mem_candidatesOf.mp hk
    obtain ⟨hv, d, hd, hwrap, -⟩ := Customization.candidate?_eq_some.mp hk
    obtain ⟨d', hd', hnot⟩ := resolve_of_run hm hcontrol h hc hw hq hv
    obtain rfl := Except.ok.inj (hd.symm.trans hd')
    rw [hwrap] at hnot
    cases hnot
  nodup := hn

end Left

/-- A second run on what the first one left changes nothing. -/
theorem again_of_run {v : Value} (hm : Model.ofValue v = .ok s.model)
    (hnames : ∀ c ∈ s.model.walk, (s.model.decl c).name ≠ "" ∧ Pointless (s.model.decl c).name)
    (hescapes : p.naming.escapes = Naming.defaultEscapes) (hcontrol : p.control = none)
    (h : p.run.run s = .ok result t) :
    ∃ again u, p.run.run { model := t.model, files := t.files } = .ok again u ∧
      u.model = t.model ∧ again.records = [] ∧ again.renamed = [] ∧
      again.counters.modifications = 0 ∧ again.counters.deletions = 0 ∧
      again.counters.renames = [] := by
  have hd := Model.described_ofValue hm
  have hn := nodup_qualifiedName_of_run hm hnames hescapes (by simp [hcontrol]) h
  obtain ⟨-, -, -, w, -, -, -, -, -, hconclude⟩ := run_ok h
  have hsettled := settles_of_run hd hcontrol h hn
  exact run_of_settles (s := { model := t.model, files := t.files }) hsettled
    fun k u hu => conclude_again hconclude hu

/-- Items whose wrapper is to be called like the orders, and notes that stay. -/
def notedOrders : Value :=
  .object [("package", .text "shop"), ("classes", .list [
    .object [("name", .text "Order"), ("properties", .list [
      .object [("name", .text "item"), ("repeated", .bool true),
        ("customization", .object [("class", .text "Order"), ("collection", .text "set")])],
      .object [("name", .text "note"), ("repeated", .bool true),
        ("customization", .object [("wrap", .bool false)])]])]])]

theorem again_of_notedOrders_run : ∃ m result t again u, Model.ofValue notedOrders = .ok m ∧
    (⟨{ summary := .text "out/summary.txt" }, none, {}⟩ : Pass).run.run { model := m } =
      .ok result t ∧
    (result.counters.candidates, result.counters.modifications, result.renamed.length) = (2, 1, 1) ∧
    (⟨{ summary := .text "out/summary.txt" }, none, {}⟩ : Pass).run.run
      { model := t.model, files := t.files } = .ok again u ∧
    u.model = t.model ∧ again.records = [] ∧ again.renamed = [] ∧
      again.counters.modifications = 0 ∧ again.counters.deletions = 0 ∧
      again.counters.renames = [] := by
  obtain ⟨m, result, t, hm, hr, hcounts, hnames⟩ :=
    exists_run_of_ran? ⟨{ summary := .text "out/summary.txt" }, none, {}⟩ notedOrders
      (fun m result _ => (result.counters.candidates, result.counters.modifications,
        result.renamed.length) = (2, 1, 1) ∧
          ∀ c ∈ m.walk, (m.decl c).name ≠ "" ∧ '.' ∉ (m.decl c).name.toList) (by decide +kernel)
  obtain ⟨again, u, hagain⟩ := again_of_run hm hnames rfl rfl hr
  exact ⟨m, result, t, again, u, hm, hr, hcounts, hagain⟩

end Pass
end Enfold
