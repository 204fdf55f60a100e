import Enfold.Proofs.Pass.Capacity

/-! # What the counts of a run say

Choosing counts the properties that may hold many values, and every step of the rewriting counts
its record: as a modification if it makes a wrapper, as a deletion if it drops the candidate. No
other property leaves its class, so the counts account for the whole model.
-/

namespace Enfold

open PassM

variable {z : Customization} {n : Naming} {m m' : Model} {s t : PassState} {c : ClassId}
  {q : PropertyId} {k : Candidate} {ks ks' : List Candidate} {r : Record} {rs : List Record}
  {p : Pass} {result : PassResult}

/-! ### What may hold many values -/

/-- Repeated or of open-ended content, and no attribute. -/
def Property.declaresMany (x : Property) : Bool :=
  !x.isAttribute && (x.multiplicity = .repeated || x.kind = .any || x.kind = .reference)

theorem Property.Described.isMultiValued_eq {x : Property} (h : x.Described) :
    x.isMultiValued = x.declaresMany := by
  unfold isMultiValued declaresMany
  rw [h.synthetic, h.reference]
  cases x.kind <;> simp [ContentKind.isOpenEnded]

def Model.declaredMany (m : Model) : List PropertyId :=
  m.walkProperties.filter fun q => (m.prop q).declaresMany

theorem Model.Described.multiValued_eq (hm : m.Described) : m.multiValued = m.declaredMany :=
  List.filter_congr fun q _ => (hm.prop q).isMultiValued_eq

namespace Customization

def wraps (z : Customization) (m : Model) (q : PropertyId) : Bool :=
  (z.resolve m q).toOption.any Directive.wrap

def suppresses (z : Customization) (m : Model) (q : PropertyId) : Bool :=
  (z.resolve m q).toOption.any fun d => !d.wrap

theorem suppresses_eq {d : Directive} (h : z.resolve m q = .ok d) :
    z.suppresses m q = !z.wraps m q := by
  simp [suppresses, wraps, h, Except.toOption]

theorem isSome_candidate? : (z.candidate? m c q).isSome =
    ((m.prop q).isMultiValued && z.wraps m q) := by
  unfold candidate? wraps
  cases (m.prop q).isMultiValued with
  | false => rfl
  | true =>
    cases (z.resolve m q).toOption with
    | none => rfl
    | some d => cases h : d.wrap <;> simp [Option.filter, h]

theorem map_prop_candidates (hw : ∀ c, (m.decl c).isWrapper = false) :
    (z.candidates m).map Candidate.prop = m.multiValued.filter (z.wraps m) := by
  unfold candidates Model.multiValued Model.walkProperties
  rw [List.map_flatMap, List.filter_flatMap, List.filter_flatMap]
  refine List.flatMap_congr fun c _ => ?_
  have hprop : (fun q => (z.candidate? m c q).map Candidate.prop) =
      Option.guard fun q => (z.candidate? m c q).isSome := by
    funext q
    cases h : z.candidate? m c q with
    | none => simp [Option.guard, h]
    | some k => simp [Option.guard, h, (prop_of_candidate? h).1]
  rw [candidatesOf, hw c, if_neg Bool.false_ne_true, List.map_filterMap, hprop,
    List.filterMap_eq_filter, List.filter_filter]
  refine List.filter_congr fun q _ => ?_
  rw [isSome_candidate?, Bool.and_comm]

end Customization

/-! ### Counting what is considered -/

def Counters.considered (k : Counters) (ps : List PropertyId) : Counters :=
  { k with candidates := k.candidates + ps.length }

theorem Counters.considered_append (k : Counters) (ps qs : List PropertyId) :
    (k.considered ps).considered qs = k.considered (ps ++ qs) := by
  simp [considered, Int.add_assoc]

theorem considerProperty_counters (h : (considerProperty z c ks q).run s = .ok ks' t) :
    t.counters = s.counters.considered ([q].filter fun q => (s.model.prop q).isMultiValued) := by
  unfold considerProperty at h
  rw [run_get_bind] at h
  dsimp only at h
  split at h
  · next hv =>
    cases h
    simp_all [Counters.considered]
  · next hv =>
    rw [run_count_bind, configured_bind_eq_ok] at h
    obtain ⟨d, -, h⟩ := h
    have hv : (s.model.prop q).isMultiValued = true := by simpa using hv
    split at h <;> cases h <;> simp [Counters.considered, hv]

theorem considerClass_counters (hw : (s.model.decl c).isWrapper = false)
    (h : (considerClass z ks c).run s = .ok ks' t) : t.counters = s.counters.considered
      ((s.model.decl c).properties.filter fun q => (s.model.prop q).isMultiValued) := by
  unfold considerClass at h
  rw [run_get_bind] at h
  dsimp only at h
  rw [hw, if_neg Bool.false_ne_true] at h
  refine (foldlM_inv (t := t) (fun done _ u => u.model = s.model ∧ u.counters =
    s.counters.considered (done.filter fun q => (s.model.prop q).isMultiValued)) ?_
      ⟨rfl, by simp [Counters.considered]⟩ h).2
  rintro done q rest ks₁ ks₂ u v - ⟨hu, hcount⟩ hq
  refine ⟨((considerProperty_keeps (fun _ _ _ => rfl) z c _ q).of_ok hq).trans hu, ?_⟩
  rw [considerProperty_counters hq, hcount, hu, Counters.considered_append, List.filter_append]

theorem selectCandidates_counters (hw : ∀ c, (s.model.decl c).isWrapper = false)
    (h : (selectCandidates z).run s = .ok ks t) :
    t.counters = s.counters.considered s.model.multiValued := by
  unfold selectCandidates at h
  rw [run_get_bind] at h
  obtain ⟨ks, u, hf, h⟩ := bind_eq_ok.mp h
  cases h
  rw [Model.multiValued, Model.walkProperties, List.filter_flatMap]
  refine (foldlM_inv (t := u) (fun done _ v => v.model = s.model ∧ v.counters =
    s.counters.considered (done.flatMap fun c =>
      (s.model.decl c).properties.filter fun q => (s.model.prop q).isMultiValued)) ?_
        ⟨rfl, by simp [Counters.considered]⟩ hf).2
  rintro done c rest ks₁ ks₂ v w - ⟨hv, hcount⟩ hc
  refine ⟨((considerClass_keeps (fun _ _ _ => rfl) _ _ c).of_ok hc).trans hv, ?_⟩
  rw [considerClass_counters (hv ▸ hw c) hc, hcount, hv, Counters.considered_append,
    List.flatMap_append, List.flatMap_singleton]

theorem Pass.choose_counters (hw : ∀ c, (s.model.decl c).isWrapper = false)
    (h : p.choose.run s = .ok ks t) :
    t.counters = s.counters.considered s.model.multiValued := by
  unfold choose at h
  rw [run_get_bind] at h
  dsimp only at h
  rw [run_report_bind, configured_bind_eq_ok] at h
  obtain ⟨_, _, h⟩ := h
  have := selectCandidates_counters (by exact hw) h
  exact this

/-! ### Counting what is done -/

def deletedOf (rs : List Record) : List Record := rs.filter Record.deleted

def Model.countProperties (m : Model) (cs : List ClassId) : Nat :=
  (cs.map fun c => (m.decl c).properties.length).sum

/-- A candidate is counted once, as wrapped or as dropped. -/
theorem Candidate.synthesize_counters (hm : s.model.Linked)
    (hk : k.prop ∈ (s.model.decl k.owner).properties) (h : (k.synthesize n).run s = .ok r t) :
    t.counters.candidates = s.counters.candidates ∧
      t.counters.modifications = s.counters.modifications + (wrappersOf [r]).length ∧
      t.counters.deletions = s.counters.deletions + (deletedOf [r]).length := by
  unfold synthesize at h
  rw [run_get_bind] at h
  split at h
  · rw [run_dropInherited hm hk] at h
    cases h
    simp [wrappersOf, deletedOf]
  · obtain ⟨plan, u, hp, h⟩ := bind_eq_ok.mp h
    have hcount := (plan_keeps (fun s => (s.counters.candidates, s.counters.modifications,
      s.counters.deletions)) (fun _ _ => rfl) k n).of_ok hp
    obtain ⟨hu, hp⟩ := plan_ok hp
    rw [run_wrap (hu ▸ hm) (hu ▸ hk) (hu ▸ hp.fits) rfl rfl rfl] at h
    cases h
    simp only [Prod.mk.injEq] at hcount
    simp [wrappersOf, deletedOf, hcount]

theorem Model.countProperties_congr {cs : List ClassId} (h : ∀ c ∈ cs,
    (m'.decl c).properties.length = (m.decl c).properties.length) :
    m'.countProperties cs = m.countProperties cs :=
  congrArg List.sum (List.map_congr_left h)

theorem Model.countProperties_unlink {cs : List ClassId} (hn : cs.Nodup) (hc : c ∈ cs)
    (hq : q ∈ (m.decl c).properties) :
    (m.unlink c q).countProperties cs + 1 = m.countProperties cs := by
  obtain ⟨l₁, l₂, rfl⟩ := List.append_of_mem hc
  have hnot := (List.nodup_cons.mp (List.nodup_middle.mp hn)).1
  have hsplit (m : Model) : m.countProperties (l₁ ++ c :: l₂) =
      m.countProperties (l₁ ++ l₂) + (m.decl c).properties.length := by
    simp [countProperties, Nat.add_comm, Nat.add_left_comm]
  have hrest : (m.unlink c q).countProperties (l₁ ++ l₂) = m.countProperties (l₁ ++ l₂) := by
    refine countProperties_congr fun d hd => ?_
    rw [decl_unlink (class_lt_of_mem hq), if_neg]
    rintro rfl
    exact hnot hd
  have hlen := List.length_erase_add_one hq
  rw [hsplit, hsplit, hrest, decl_unlink (class_lt_of_mem hq), if_pos rfl]
  dsimp only
  omega

structure Counted (s : PassState) (rs : List Record) (t : PassState) : Prop where
  candidates : t.counters.candidates = s.counters.candidates
  modifications : t.counters.modifications = s.counters.modifications + (wrappersOf rs).length
  deletions : t.counters.deletions = s.counters.deletions + (deletedOf rs).length
  records : (wrappersOf rs).length + (deletedOf rs).length = rs.length
  properties : t.model.countProperties s.model.walk + (deletedOf rs).length =
    s.model.countProperties s.model.walk

theorem Synthesizing.counted (h : Synthesizing n s rs t) (hm : s.model.Linked) :
    Counted s rs t := by
  induction h with
  | start => exact ⟨rfl, (Int.add_zero _).symm, (Int.add_zero _).symm, rfl, rfl⟩
  | @step rs t u r hrun hk hs ih =>
    have hnow := hrun.advanced hm
    have hmem := hnow.stands hk
    have howner := (Model.mem_walk hm).mpr (Model.class_lt_of_mem hk.mem)
    obtain ⟨hc, hmod, hdel⟩ := Candidate.synthesize_counters hnow.linked hmem hs
    have hw := wrappersOf_append rs [r]
    have hd : deletedOf (rs ++ [r]) = deletedOf rs ++ deletedOf [r] := by simp [deletedOf]
    have hlists : u.model.countProperties s.model.walk + (deletedOf [r]).length =
          t.model.countProperties s.model.walk ∧
        (wrappersOf [r]).length + (deletedOf [r]).length = 1 := by
      rcases Candidate.synthesize_ok hnow.linked hmem hs with h | ⟨plan, w, q, h⟩
      · obtain ⟨w, -, hr⟩ := h.inherited
        have hdeleted : r.deleted = true := by rw [hr]
        rw [h.model]
        simp [deletedOf, wrappersOf, hdeleted,
          Model.countProperties_unlink (Model.nodup_walk hm) howner hmem]
      · -- The reference stands where the candidate stood, so no list changes its length.
        have hwraps := h.wraps hnow.linked hmem
        have hdeleted : r.deleted = false := by rw [h.record]
        have hwrapper : r.wrapper = some w := by rw [h.record]
        refine ⟨?_, by simp [deletedOf, wrappersOf, hdeleted, hwrapper]⟩
        have hsame : ∀ c ∈ s.model.walk, (u.model.decl c).properties.length =
            (t.model.decl c).properties.length := by
          intro c hc
          by_cases hco : c = r.candidate.owner
          · rw [hco, hwraps.owner]
            simp [Model.substituted]
          · rw [hwraps.class_eq ?_ hco]
            rintro rfl
            exact hwraps.not_lt (Nat.lt_of_lt_of_le ((Model.mem_walk hm).mp hc) hnow.size_le)
        simp [deletedOf, hdeleted, Model.countProperties_congr hsame]
    obtain ⟨hlists, hone⟩ := hlists
    have hmods := ih.modifications
    have hdels := ih.deletions
    have hrecords := ih.records
    have hproperties := ih.properties
    refine ⟨hc.trans ih.candidates, ?_, ?_, ?_, ?_⟩ <;>
      simp only [hw, hd, List.length_append, List.length_singleton] <;> omega

theorem Counted.placeClasses {u : PassState} {cs : List ClassId} (h : Counted s rs t)
    (hp : (Enfold.placeClasses n).run t = .ok cs u) : Counted s rs u := by
  have hcount := (placeClasses_keeps (fun s => (s.counters.candidates, s.counters.modifications,
    s.counters.deletions)) (fun _ _ _ _ => rfl) n).of_ok hp
  have hlists : u.model.countProperties s.model.walk = t.model.countProperties s.model.walk := by
    refine Model.countProperties_congr fun c _ => ?_
    obtain ⟨_, _, hd⟩ := (placeClasses_relabelled hp).decl c
    rw [hd]
  simp only [Prod.mk.injEq] at hcount
  obtain ⟨hc, hm, hd⟩ := hcount
  exact ⟨hc.trans h.candidates, hm.trans h.modifications, hd.trans h.deletions, h.records,
    hlists ▸ h.properties⟩

/-- The classes that were not there are the wrappers. -/
theorem Advanced.perm_added (h : Advanced m rs m') (hm : m.Linked) :
    (m'.walk.filter fun c => c ∉ m.walk).Perm (wrappersOf rs) := by
  have hids := List.nodup_append.mp (h.classIds ▸ Model.nodup_classIds m')
  refine (List.perm_ext_iff_of_nodup ((Model.nodup_walk h.linked).filter _) hids.2.1).mpr
    fun c => ?_
  have hnew : c ∈ wrappersOf rs → c ∉ m.walk := h.notMem_walk hm
  rw [List.mem_filter, h.mem_walk_iff hm, decide_eq_true_eq]
  tauto

/-! ### The counts of a run -/

/-- The counts of a run account for its records, and for the classes and properties of both models.
-/
structure Accounted (z : Customization) (m : Model) (result : PassResult) (m' : Model) : Prop where
  candidates : result.counters.candidates = m.declaredMany.length
  records : result.records.map (fun r => r.candidate.prop) = m.declaredMany.filter (z.wraps m)
  modifications : result.counters.modifications = (result.records.filter fun r => !r.deleted).length
  wrappers : result.counters.modifications = result.wrappers.length
  added : result.counters.modifications = (m'.walk.filter fun c => c ∉ m.walk).length
  deletions : result.counters.deletions = (result.records.filter fun r => r.deleted).length
  dropped : result.counters.deletions = m.countProperties m.walk - m'.countProperties m.walk
  suppressed : result.counters.candidates - result.counters.modifications -
    result.counters.deletions = (m.declaredMany.filter (z.suppresses m)).length

theorem Customization.length_filter_suppresses (hz : z.Decides m) (hm : m.Described) :
    (m.declaredMany.filter (z.wraps m)).length + (m.declaredMany.filter (z.suppresses m)).length =
      m.declaredMany.length := by
  have hsame : m.declaredMany.filter (z.suppresses m) =
      m.declaredMany.filter fun q => !z.wraps m q := by
    refine List.filter_congr fun q hq => ?_
    obtain ⟨hmem, hv⟩ := List.mem_filter.mp hq
    obtain ⟨c, hc, hq⟩ := List.mem_flatMap.mp hmem
    obtain ⟨d, hd⟩ := hz.resolve c hc (hm.isWrapper c) q hq ((hm.prop q).isMultiValued_eq ▸ hv)
    exact suppresses_eq hd
  rw [hsame]
  exact (List.length_eq_length_filter_add _).symm

namespace Pass

theorem counted_of_choose {u v : PassState} (hm : s.model.Linked) (hc : p.choose.run s = .ok ks u)
    (h : (synthesizeAll p.naming ks).run u = .ok rs v) : Counted u rs v := by
  obtain ⟨x, ns, hx, rfl⟩ := synthesizeAll_ok h
  obtain ⟨-, hsyn⟩ := synthesizing_of_linked hm hc (List.prefix_refl ks) hx
  have hcount := hsyn.counted ((choose_ok hc).2 ▸ hm)
  exact { hcount with }

theorem accounted_of_described (hm : s.model.Described) (hs : s.counters = {})
    (h : p.run.run s = .ok result t) :
    Accounted ⟨p.options, p.control⟩ s.model result t.model := by
  obtain ⟨ks, u, v, w, hc, hsyn, hp, ht, hcounters, -⟩ := run_ok h
  have hcount := (counted_of_choose hm.toLinked hc hsyn).placeClasses hp
  obtain ⟨hrs, hnow⟩ := advanced_of_choose hm.toLinked hc hsyn
  have hsuppressed := Customization.length_filter_suppresses (choose_isOk_iff.mp ⟨ks, u, hc⟩) hm
  have hchosen := choose_counters hm.isWrapper hc
  obtain ⟨rfl, hu⟩ := choose_ok hc
  have hrecords : result.records.map (fun r => r.candidate.prop) =
      s.model.declaredMany.filter (Customization.wraps ⟨p.options, p.control⟩ s.model) := by
    rw [← hm.multiValued_eq, ← Customization.map_prop_candidates hm.isWrapper, ← hrs, List.map_map]
    rfl
  have hlen := congrArg List.length hrecords
  rw [List.length_map] at hlen
  have hadded := (hnow.perm_added hm.toLinked).length_eq
  rw [← (placeClasses_relabelled hp).walk_eq] at hadded
  have hundeleted := List.length_eq_length_filter_add (l := result.records) Record.deleted
  have hcandidates : result.counters.candidates = s.model.declaredMany.length := by
    rw [hcounters, hcount.candidates, hchosen, hs, hm.multiValued_eq]
    simp [Counters.considered]
  have hmodifications : result.counters.modifications = result.wrappers.length := by
    rw [hcounters, hcount.modifications, hchosen, hs]
    exact Int.zero_add _
  have hdeletions : result.counters.deletions = (result.records.filter Record.deleted).length := by
    rw [hcounters, hcount.deletions, hchosen, hs]
    exact Int.zero_add _
  have hparts : result.wrappers.length + (result.records.filter Record.deleted).length =
    result.records.length := hcount.records
  have hlists : t.model.countProperties s.model.walk +
      (result.records.filter Record.deleted).length = s.model.countProperties s.model.walk := by
    rw [ht, ← hu]
    exact hcount.properties
  refine ⟨hcandidates, hrecords, ?_, hmodifications, ?_, hdeletions, ?_, ?_⟩
  · omega
  · rw [hmodifications, ht, hadded]
    rfl
  · omega
  · omega

/-- The counts account for all that was declared to hold many values. -/
theorem accounted_of_run {v : Value} {files : FileTree} (hm : Model.ofValue v = .ok m)
    (h : p.run.run { model := m, files := files } = .ok result t) :
    Accounted ⟨p.options, p.control⟩ m result t.model := by
  have := accounted_of_described (s := { model := m, files := files })
    (Model.described_ofValue hm) rfl h
  exact this

/-- Orders with notes that are not to be wrapped, and a second declaration of their items. -/
def plainNotes : Value :=
  .object [("package", .text "shop"), ("classes", .list [
    .object [("name", .text "Order"), ("properties", .list [
      .object [("name", .text "item"), ("repeated", .bool true)],
      .object [("name", .text "note"), ("repeated", .bool true),
        ("customization", .object [("wrap", .bool false)])]])],
    .object [("name", .text "BulkOrder"), ("base", .text "shop.Order"), ("properties", .list [
      .object [("name", .text "item"), ("repeated", .bool true)]])]])]

theorem accounted_of_plainNotes_run : ∃ m result t, Model.ofValue plainNotes = .ok m ∧
    (⟨{}, none, {}⟩ : Pass).run.run { model := m } = .ok result t ∧
      result.counters = { candidates := 3, modifications := 1, deletions := 1 } ∧
      Accounted ⟨{}, none⟩ m result t.model := by
  obtain ⟨m, result, t, hm, hr, hcounters⟩ := exists_run_of_ran? ⟨{}, none, {}⟩ plainNotes
    (fun _ result _ => result.counters = { candidates := 3, modifications := 1, deletions := 1 })
    (by decide +kernel)
  exact ⟨m, result, t, hm, hr, hcounters, accounted_of_run hm hr⟩

end Pass
end Enfold
