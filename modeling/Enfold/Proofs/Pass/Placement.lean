import Enfold.Proofs.Model.Rename
import Enfold.Proofs.Pass.Shape

/-! # What placement changes

Placement renames classes and changes nothing else, so the shape of the rewrite outlives it. No
renaming reaches a class that has claimed its name.
-/

namespace Enfold

open PassM

variable {n : Naming} {m m' m'' : Model} {s t : PassState} {c : ClassId} {cs : List ClassId}
  {rs : List Record} {a b : PlacementState} {done rest : List ClassId} {claimed : List String}

theorem renameCollision_ok {claimed : List String}
    (h : (renameCollision n c claimed).run s = .ok () t) :
    ∃ name, name ∉ s.model.takenBeside c claimed ∧
      (name = (s.model.decl c).name ∨ ∃ i : Nat, name = (s.model.decl c).name ++ toString i) ∧
        t.model = s.model.renameClass c name := by
  unfold renameCollision at h
  rw [run_get_bind] at h
  obtain ⟨name, u, hn, h⟩ := bind_eq_ok.mp h
  obtain ⟨-, hfree, hname⟩ := claimName_ok hn
  cases h
  exact ⟨name, hfree, hname, rfl⟩

section Keeps

variable {γ : Type} {view : PassState → γ} (hv : ∀ s m ns rs, view { s with
  model := m, counters := { s.counters with renames := ns }, notices := rs } = view s)

include hv

theorem placeClass_keeps (n : Naming) (a : PlacementState) (c : ClassId) :
    Keeps view (placeClass n a c) := by
  unfold placeClass renameCollision
  refine Keeps.get.bind fun s => ?_
  split
  · refine Keeps.bind ?_ fun _ => Keeps.get.bind fun _ => .pure _
    refine Keeps.get.bind fun s => ?_
    refine (claimName_keeps view (fun s ns => hv s _ _ _) ..).bind fun _ => ?_
    exact (Keeps.modify fun s => hv s _ _ _).bind fun _ => .report (fun s _ => hv s _ _ _) _
  · exact Keeps.get.bind fun _ => .pure _

variable (view)

theorem placeClasses_keeps (n : Naming) : Keeps view (placeClasses n) := by
  unfold placeClasses
  refine Keeps.get.bind fun s => (Keeps.foldlM (fun a c => placeClass_keeps hv n a c) _ _).bind ?_
  intro a
  refine Keeps.bind ?_ fun _ => .pure _
  cases !a.renamed.isEmpty with
  | false => exact .pure ()
  | true => exact .report (fun s _ => hv s _ _ _) _

end Keeps

/-- A class claims its name as it is, or is renamed first. -/
theorem placeClass_ok (h : (placeClass n a c).run s = .ok b t) :
    s.model.qualifiedName c ∉ a.claimed ∧ t = s ∧
        b = ⟨a.claimed ++ [s.model.qualifiedName c], a.renamed⟩ ∨
      s.model.qualifiedName c ∈ a.claimed ∧ (renameCollision n c a.claimed).run s = .ok () t ∧
        b = ⟨a.claimed ++ [t.model.qualifiedName c], a.renamed ++ [c]⟩ := by
  unfold placeClass at h
  rw [run_get_bind] at h
  split at h
  · next hc =>
    obtain ⟨_, u, hr, h⟩ := bind_eq_ok.mp h
    cases h
    exact Or.inr ⟨hc, hr, rfl⟩
  · next hc =>
    cases h
    exact Or.inl ⟨hc, rfl, rfl⟩

theorem placeClass_relabelled (h : (placeClass n a c).run s = .ok b t) :
    s.model.Relabelled t.model b.renamed ∧ a.renamed ⊆ b.renamed := by
  rcases placeClass_ok h with ⟨-, rfl, rfl⟩ | ⟨-, hr, rfl⟩
  · exact ⟨.refl _ _, fun _ h => h⟩
  · obtain ⟨name, -, -, ht⟩ := renameCollision_ok hr
    rw [ht]
    exact ⟨(Model.relabelled_renameClass _ c name).mono (by simp), by simp⟩

theorem placeClasses_ok (h : (placeClasses n).run s = .ok cs t) : ∃ a u,
    (s.model.walk.foldlM (placeClass n) {}).run s = .ok a u ∧ cs = a.renamed ∧
      t.model = u.model := by
  unfold placeClasses at h
  rw [run_get_bind] at h
  obtain ⟨a, u, hf, h⟩ := bind_eq_ok.mp h
  rw [run_reportIf_bind] at h
  cases h
  exact ⟨a, u, hf, rfl, rfl⟩

theorem relabelled_of_foldlM (h : (cs.foldlM (placeClass n) a).run s = .ok b t) :
    s.model.Relabelled t.model b.renamed := by
  refine foldlM_inv (t := t) (fun _ a v => s.model.Relabelled v.model a.renamed) ?_ (.refl _ _) h
  intro _ c _ a b v u _ hv hp
  obtain ⟨hu, hs⟩ := placeClass_relabelled hp
  exact (hv.mono hs).trans hu

theorem placeClasses_relabelled (h : (placeClasses n).run s = .ok cs t) :
    s.model.Relabelled t.model cs := by
  obtain ⟨a, u, hf, rfl, ht⟩ := placeClasses_ok h
  rw [ht]
  exact relabelled_of_foldlM hf

/-- The new name of a class is free, and may have a number behind it. -/
structure Model.Renaming (m : Model) (c : ClassId) (name : String) : Prop where
  linked : m.Linked
  mem : c ∈ m.walk
  free : ∃ claimed, name ∉ m.takenBeside c claimed
  numbered : name = (m.decl c).name ∨ ∃ i : Nat, name = (m.decl c).name ++ toString i

theorem Model.Renaming.lt {name : String} (h : m.Renaming c name) : c.index < m.classes.size :=
  (mem_walk h.linked).mp h.mem

/-- What every renaming keeps holds in the end. No class is renamed twice. -/
theorem placeClasses_inv (I : List ClassId → Model → Prop) (hm : s.model.Linked)
    (start : I [] s.model)
    (step : ∀ renamed m c name, m.Renaming c name → c ∉ renamed → I renamed m →
      I (renamed ++ [c]) (m.renameClass c name))
    (h : (placeClasses n).run s = .ok cs t) : I cs t.model := by
  obtain ⟨b, u, hf, rfl, ht⟩ := placeClasses_ok h
  rw [ht]
  refine (foldlM_inv (t := u) (fun done a v => (v.model.Linked ∧ v.model.walk = s.model.walk) ∧
    (∀ d ∈ a.renamed, d ∈ done) ∧ I a.renamed v.model) ?_ ⟨⟨hm, rfl⟩, by simp, start⟩ hf).2.2
  rintro done c rest a b v u hsplit ⟨⟨hv, hwalk⟩, hsub, hi⟩ hstep
  rcases placeClass_ok hstep with ⟨-, rfl, rfl⟩ | ⟨-, hr, rfl⟩
  · exact ⟨⟨hv, hwalk⟩, fun d hd => List.mem_append_left _ (hsub d hd), hi⟩
  · obtain ⟨name, hfree, hname, hu⟩ := renameCollision_ok hr
    have hrel := v.model.relabelled_renameClass c name
    have hmem : c ∈ v.model.walk := by rw [hwalk, hsplit]; simp
    have hfresh : c ∉ a.renamed := by
      have hnodup := List.nodup_append.mp (hsplit ▸ Model.nodup_walk hm)
      exact fun hc => hnodup.2.2 c (hsub c hc) c List.mem_cons_self rfl
    rw [hu]
    refine ⟨⟨hrel.linked hv, hrel.walk_eq.trans hwalk⟩, fun d hd => ?_,
      step _ _ _ _ ⟨hv, hmem, ⟨_, hfree⟩, hname⟩ hfresh hi⟩
    exact List.mem_append.mpr ((List.mem_append.mp hd).imp_left (hsub d))

theorem model_eq_of_placeClasses (hm : s.model.Linked) (h : (placeClasses n).run s = .ok [] t) :
    t.model = s.model :=
  placeClasses_inv (fun renamed m => renamed = [] → m = s.model) hm (fun _ => rfl)
    (fun renamed _ c _ _ _ _ hnone => by simp at hnone) h rfl

theorem placeClass_error {e : Failure} (h : (placeClass n a c).run s = .error e t) :
    t.model = s.model := by
  unfold placeClass renameCollision at h
  rw [run_get_bind] at h
  split at h
  · rcases bind_eq_error.mp h with h | ⟨_, u, -, h⟩
    · rw [run_get_bind] at h
      rcases bind_eq_error.mp h with h | ⟨name, u, -, h⟩
      · exact (claimName_keeps PassState.model (fun _ _ => rfl) ..).of_error h
      · rw [run_setModel_bind] at h
        cases h
    · cases h
  · cases h

theorem placeClasses_error {e : Failure} (h : (placeClasses n).run s = .error e t) :
    ∃ cs, s.model.Relabelled t.model cs := by
  unfold placeClasses at h
  rw [run_get_bind] at h
  rcases bind_eq_error.mp h with h | ⟨a, u, -, h⟩
  · obtain ⟨l₁, c, l₂, a, u, -, hd, hc⟩ := foldlM_eq_error h
    exact ⟨a.renamed, placeClass_error hc ▸ relabelled_of_foldlM hd⟩
  · rw [run_reportIf_bind] at h
    cases h

/-! ### Claimed names -/

/-- The classes that were placed so far and the names that they have claimed. -/
structure Claimed (m : Model) (done : List ClassId) (claimed : List String) : Prop where
  linked : m.Linked
  claimed_eq : claimed = done.map m.qualifiedName

theorem Model.Linked.qualifiedName_renameClass (hm : m.Linked) (hw : m.walk = done ++ c :: rest)
    (name : String) {d : ClassId} (hd : d ∈ done) :
    (m.renameClass c name).qualifiedName d = m.qualifiedName d := by
  have hnodup := hw ▸ nodup_walk hm
  refine (m.relabelled_renameClass c name).qualifiedName_eq (fun d hd he => ?_)
    (fun hd hp => parent_mem_of_walk_eq hm hw hd hp) hd
  obtain rfl := List.mem_singleton.mp he
  exact (List.nodup_append.mp hnodup).2.2 d hd d List.mem_cons_self rfl

namespace Claimed

theorem append (h : Claimed m done claimed) (hl : m'.Linked)
    (hkeep : ∀ d ∈ done, m'.qualifiedName d = m.qualifiedName d) (c : ClassId) :
    Claimed m' (done ++ [c]) (claimed ++ [m'.qualifiedName c]) where
  linked := hl
  claimed_eq := by
    rw [h.claimed_eq, List.map_append, List.map_congr_left hkeep]
    rfl

theorem placeClass (h : Claimed s.model done a.claimed) (hw : s.model.walk = done ++ c :: rest)
    (hp : (placeClass n a c).run s = .ok b t) : Claimed t.model (done ++ [c]) b.claimed ∧
      t.model.walk = s.model.walk ∧
      (∀ d ∈ done, t.model.qualifiedName d = s.model.qualifiedName d) ∧
      (s.model.qualifiedName c ∉ a.claimed →
        t.model.qualifiedName c = s.model.qualifiedName c) := by
  rcases placeClass_ok hp with ⟨hq, rfl, rfl⟩ | ⟨hq, hr, rfl⟩
  · exact ⟨h.append h.linked (fun _ _ => rfl) c, rfl, fun _ _ => rfl, fun _ => rfl⟩
  · obtain ⟨name, -, -, ht⟩ := renameCollision_ok hr
    have hkeep (d) (hd : d ∈ done) := h.linked.qualifiedName_renameClass hw name hd
    have hrel := s.model.relabelled_renameClass c name
    rw [ht]
    exact ⟨h.append (hrel.linked h.linked) hkeep c, hrel.walk_eq, hkeep, fun hn => absurd hq hn⟩

theorem foldlM {later : List ClassId} (h : Claimed s.model done a.claimed)
    (hw : s.model.walk = done ++ (rest ++ later))
    (hp : (rest.foldlM (Enfold.placeClass n) a).run s = .ok b t) :
    Claimed t.model (done ++ rest) b.claimed ∧ t.model.walk = s.model.walk ∧
      (∀ d ∈ done, t.model.qualifiedName d = s.model.qualifiedName d) ∧ a.renamed ⊆ b.renamed := by
  induction rest generalizing done a s with
  | nil =>
    cases hp
    exact ⟨by simpa using h, rfl, fun _ _ => rfl, fun _ h => h⟩
  | cons c rest ih =>
    rw [List.foldlM_cons] at hp
    obtain ⟨x, u, hc, hp⟩ := bind_eq_ok.mp hp
    obtain ⟨hplaced, hwalk, hkeep, -⟩ := h.placeClass hw hc
    obtain ⟨hend, hwalk', hkeep', hsub⟩ := ih hplaced (by rw [hwalk, hw]; simp) hp
    refine ⟨by simpa using hend, hwalk'.trans hwalk, fun d hd => ?_,
      fun _ h => hsub ((placeClass_relabelled hc).2 h)⟩
    rw [hkeep' d (List.mem_append_left _ hd), hkeep d hd]

theorem qualifiedName_eq (h : Claimed s.model done a.claimed)
    (hw : s.model.walk = done ++ c :: rest) (hq : s.model.qualifiedName c ∉ a.claimed)
    (hp : ((c :: rest).foldlM (Enfold.placeClass n) a).run s = .ok b t) :
    t.model.qualifiedName c = s.model.qualifiedName c := by
  rw [List.foldlM_cons] at hp
  obtain ⟨x, u, hc, hp⟩ := bind_eq_ok.mp hp
  obtain ⟨hplaced, hwalk, -, hself⟩ := h.placeClass hw hc
  have hw' : u.model.walk = (done ++ [c]) ++ (rest ++ []) := by rw [hwalk, hw]; simp
  obtain ⟨-, -, hkeep, -⟩ := hplaced.foldlM hw' hp
  rw [hkeep c (by simp), hself hq]

theorem findClass?_eq (h : Claimed s.model done a.claimed)
    (hw : s.model.walk = done ++ c :: rest)
    (hp : ((c :: rest).foldlM (Enfold.placeClass n) a).run s = .ok b t) (hc : c ∉ b.renamed) :
    t.model.findClass? (t.model.qualifiedName c) = some c := by
  have hq : s.model.qualifiedName c ∉ a.claimed := by
    rw [List.foldlM_cons] at hp
    obtain ⟨x, u, hx, hp⟩ := bind_eq_ok.mp hp
    obtain ⟨hplaced, hwalk, -, -⟩ := h.placeClass hw hx
    have hw' : u.model.walk = (done ++ [c]) ++ (rest ++ []) := by rw [hwalk, hw]; simp
    rcases placeClass_ok hx with ⟨hq, -, -⟩ | ⟨-, -, rfl⟩
    · exact hq
    · exact absurd ((hplaced.foldlM hw' hp).2.2.2 (by simp)) hc
  obtain ⟨-, hwalk, hkeep, -⟩ := h.foldlM (by rw [hw, List.append_nil]) hp
  have hnone : done.find? (fun d => t.model.qualifiedName d = t.model.qualifiedName c) = none := by
    refine List.find?_eq_none.mpr fun d hd => ?_
    rw [hkeep d hd, h.qualifiedName_eq hw hq hp, decide_eq_true_eq]
    intro e
    exact hq (h.claimed_eq ▸ e ▸ List.mem_map_of_mem hd)
  rw [Model.findClass?, hwalk, hw, List.find?_append, hnone]
  simp

end Claimed

theorem placeClasses_eq_error {e : Failure} (hm : s.model.Linked)
    (h : (placeClasses n).run s = .error e t) : ∃ done c rest a u,
      u.model.walk = done ++ c :: rest ∧ u.model.walk = s.model.walk ∧
        Claimed u.model done a.claimed ∧ (placeClass n a c).run u = .error e t := by
  unfold placeClasses at h
  rw [run_get_bind] at h
  rcases bind_eq_error.mp h with h | ⟨a, u, -, h⟩
  · obtain ⟨done, c, rest, a, u, hsplit, hdone, hfail⟩ := foldlM_eq_error h
    have hstart : Claimed s.model [] ({} : PlacementState).claimed := ⟨hm, rfl⟩
    obtain ⟨hu, hwalk, -, -⟩ := hstart.foldlM hsplit hdone
    exact ⟨done, c, rest, a, u, hwalk.trans hsplit, hwalk, hu, hfail⟩
  · rw [run_reportIf_bind] at h
    cases h

/-- A class that placement does not rename is found by its name. -/
theorem placeClasses_findClass? (hm : s.model.Linked) (h : (placeClasses n).run s = .ok cs t)
    (hw : c ∈ s.model.walk) (hc : c ∉ cs) :
    t.model.findClass? (t.model.qualifiedName c) = some c := by
  obtain ⟨b, u, hf, rfl, ht⟩ := placeClasses_ok h
  obtain ⟨done, rest, hsplit⟩ := List.append_of_mem hw
  rw [hsplit, List.foldlM_append] at hf
  obtain ⟨a, x, hdone, hrest⟩ := bind_eq_ok.mp hf
  have hstart : Claimed s.model [] ({} : PlacementState).claimed := ⟨hm, rfl⟩
  obtain ⟨hx, hwalk, -, -⟩ := hstart.foldlM hsplit hdone
  rw [ht]
  exact hx.findClass?_eq (hwalk.trans hsplit) hrest hc

theorem renamed_subset (h : (cs.foldlM (placeClass n) a).run s = .ok b t) :
    a.renamed ⊆ b.renamed := by
  refine foldlM_inv (t := t) (fun _ x _ => a.renamed ⊆ x.renamed) ?_ (fun _ h => h) h
  intro _ _ _ _ _ _ _ _ hx hc
  exact List.Subset.trans hx (placeClass_relabelled hc).2

theorem mem_of_mem_renamed (h : (cs.foldlM (placeClass n) a).run s = .ok b t) :
    ∀ d ∈ b.renamed, d ∈ a.renamed ∨ d ∈ cs := by
  refine foldlM_inv (t := t)
    (fun done x _ => ∀ d ∈ x.renamed, d ∈ a.renamed ∨ d ∈ done) ?_ (fun _ => Or.inl) h
  intro done c _ x y u v _ hx hc d hd
  rw [List.mem_append, ← or_assoc]
  rcases placeClass_ok hc with ⟨-, -, rfl⟩ | ⟨-, -, rfl⟩
  · exact Or.inl (hx d hd)
  · exact (List.mem_append.mp hd).imp_left (hx d)

theorem renamed_subset_walk (h : (placeClasses n).run s = .ok cs t) : cs ⊆ s.model.walk := by
  obtain ⟨b, u, hf, rfl, -⟩ := placeClasses_ok h
  intro d hd
  simpa using mem_of_mem_renamed hf d hd

/-- A class is renamed, exactly if one before it ends with its name. -/
theorem mem_renamed_iff (hm : s.model.Linked) (h : (placeClasses n).run s = .ok cs t)
    (hw : s.model.walk = done ++ c :: rest) (hup : ∀ d ∈ cs, d ≠ c → c ∉ s.model.subtree d) :
    c ∈ cs ↔ ∃ d ∈ done, t.model.qualifiedName d = s.model.qualifiedName c := by
  obtain ⟨b, u, hf, rfl, ht⟩ := placeClasses_ok h
  have hnodup := List.nodup_append.mp (hw ▸ Model.nodup_walk hm)
  have hnot : c ∉ done ∧ c ∉ rest :=
    ⟨fun hc => hnodup.2.2 c hc c List.mem_cons_self rfl, (List.nodup_cons.mp hnodup.2.1).1⟩
  rw [hw, List.foldlM_append] at hf
  obtain ⟨a, x, hdone, hrest⟩ := bind_eq_ok.mp hf
  have hstart : Claimed s.model [] ({} : PlacementState).claimed := ⟨hm, rfl⟩
  obtain ⟨hx, hwalk, -, -⟩ := hstart.foldlM hw hdone
  obtain ⟨-, -, hkeep, hsub⟩ :=
    hx.foldlM (by rw [hwalk, hw, List.nil_append, List.append_nil]) hrest
  have hrenamed : ∀ d ∈ a.renamed, d ∈ done := fun d hd => by
    simpa using mem_of_mem_renamed hdone d hd
  have hname : x.model.qualifiedName c = s.model.qualifiedName c := by
    refine (relabelled_of_foldlM hdone).qualifiedName_of_notMem fun d hd => ?_
    refine hup d (hsub hd) ?_
    rintro rfl
    exact hnot.1 (hrenamed _ hd)
  have hclaimed : s.model.qualifiedName c ∈ a.claimed ↔
      ∃ d ∈ done, t.model.qualifiedName d = s.model.qualifiedName c := by
    rw [hx.claimed_eq, List.nil_append, List.mem_map, ht]
    exact exists_congr fun d => and_congr_right fun hd => by rw [hkeep d hd]
  rw [← hclaimed, ← hname]
  rw [List.foldlM_cons] at hrest
  obtain ⟨y, v, hc, hrest⟩ := bind_eq_ok.mp hrest
  rcases placeClass_ok hc with ⟨hq, -, rfl⟩ | ⟨hq, -, rfl⟩
  · refine iff_of_false (fun hmem => ?_) hq
    rcases mem_of_mem_renamed hrest c hmem with hmem | hmem
    · exact hnot.1 (hrenamed c hmem)
    · exact hnot.2 hmem
  · exact iff_of_true (renamed_subset hrest (by simp)) hq

/-! ### The shape -/

theorem Reshaped.relabelled (h : Reshaped n m rs m')
    (hn : ∀ p, (m.prop p).reference = none) (hr : m'.Relabelled m'' cs) :
    Reshaped n m rs m'' where
  linked := hr.linked h.linked
  mem := h.mem
  classIds := by rw [← h.classIds, Model.classIds, hr.size, Model.classIds]
  size_le := hr.size_properties ▸ h.size_le
  properties c hc := by
    obtain ⟨_, _, hd⟩ := hr.decl c
    rw [hd, ← h.properties c hc]
  settled r hmem hd := by
    obtain ⟨w, q, hs⟩ := h.settled r hmem hd
    obtain ⟨_, _, hw⟩ := hr.decl w
    refine ⟨w, q, hs.congr (by rw [hw]; exact ⟨rfl, rfl⟩) (hr.prop q) fun p hp => ?_⟩
    -- What a wrapper holds is no reference, so no renaming reaches it.
    refine hr.prop_eq p fun c _ hc => ?_
    rcases hs.eq_or_textRuns hp with rfl | hx
    · rw [hs.moved] at hc
      exact absurd hc (by simp [Property.moved, Property.held, hn])
    · rw [hx] at hc
      cases hc
  dropped r hmem hd := by
    rw [← h.dropped r hmem hd]
    refine hr.prop_eq _ fun c _ => ?_
    rw [h.dropped r hmem hd]
    simp [hn]
  prop_eq p hp hne := by
    rw [← h.prop_eq p hp hne]
    refine hr.prop_eq p fun c _ => ?_
    rw [h.prop_eq p hp hne]
    simp [hn]
  referred q w hq := by
    obtain ⟨_, hp⟩ := hr.prop q
    rw [hp] at hq
    exact h.referred q w hq

end Enfold
