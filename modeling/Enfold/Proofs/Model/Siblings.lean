import Enfold.Proofs.Model.Rename

/-! # Names inside a package

Inside a package a class is found by the names on the way to it. A class that gets a name which is
free beside it takes what is nested in it to names that no class of the package has, before or
after.
-/

namespace Enfold.Model

variable {m m' : Model} {a b c d k w : ClassId} {name : String}

theorem inPackage_injective (package : Option String) {x y : String}
    (h : inPackage package x = inPackage package y) : x = y := by
  unfold inPackage at h
  split at h
  · exact h
  · split at h
    · exact h
    · have := congrArg String.toList h
      simp only [String.toList_append, List.append_cancel_left_eq] at this
      exact String.toList_inj.mp this

theorem append_point_inj {x y s t : String} (hs : Pointless s) (ht : Pointless t)
    (h : x ++ "." ++ s = y ++ "." ++ t) : x = y ∧ s = t := by
  have hlast {z u : String} (hu : Pointless u) :
      (z ++ "." ++ u).toList.reverse.takeWhile (· ≠ '.') = u.toList.reverse := by
    have hp : ".".toList.reverse = ['.'] := rfl
    rw [String.toList_append, String.toList_append, List.reverse_append, List.reverse_append, hp,
      List.takeWhile_append_of_pos, List.singleton_append, List.takeWhile_cons_of_neg (by simp),
      List.append_nil]
    intro ch hch
    simp only [decide_eq_true_eq]
    rintro rfl
    exact hu (List.mem_reverse.mp hch)
  have hst : s = t := by
    have := hlast (z := x) hs
    rw [h, hlast ht] at this
    exact String.toList_inj.mp (List.reverse_injective this.symm)
  subst hst
  have := congrArg String.toList h
  simp only [String.toList_append, List.append_cancel_right_eq] at this
  exact ⟨String.toList_inj.mp this, rfl⟩

/-- Classes of one qualified name stand in one scope, if an empty package is none. -/
theorem scope_eq_of_qualifiedName_eq (hm : m.Linked) (hw : m.WellNamed)
    (h : m.qualifiedName c = m.qualifiedName d) :
    (m.scope c).filter (· ≠ "") = (m.scope d).filter (· ≠ "") ∧
      (m.decl c).name = (m.decl d).name := by
  have hpoint {x s t : String} (ht : Pointless t) : x ++ "." ++ s ≠ t := by
    rintro rfl
    exact ht (by simp [String.toList_append])
  rw [qualifiedName_eq_stem hm hw, qualifiedName_eq_stem hm hw, stem, stem] at h
  cases hc : (m.scope c).filter (· ≠ "") with
  | none =>
    cases hd : (m.scope d).filter (· ≠ "") with
    | none =>
      rw [hc, hd, String.empty_append, String.empty_append] at h
      exact ⟨rfl, h⟩
    | some y =>
      rw [hc, hd, String.empty_append] at h
      exact absurd h.symm (hpoint (hw.pointless c))
  | some x =>
    cases hd : (m.scope d).filter (· ≠ "") with
    | none =>
      rw [hc, hd, String.empty_append] at h
      exact absurd h (hpoint (hw.pointless d))
    | some y =>
      rw [hc, hd] at h
      obtain ⟨rfl, hname⟩ := append_point_inj (hw.pointless c) (hw.pointless d) h
      exact ⟨rfl, hname⟩

theorem localName_of_parent_ne_pointless (hm : m.Linked) (hp : (m.decl d).parent = some c)
    {x : String} (hx : Pointless x) : m.localName d ≠ x := by
  rintro rfl
  refine hx ?_
  rw [localName_of_parent hm hp]
  simp [String.toList_append]

/-- Classes of one local name are nested alike. -/
theorem localName_eq_cases (hm : m.Linked) (hw : m.WellNamed) (hm' : m'.Linked)
    (hw' : m'.WellNamed) (h : m'.localName a = m.localName b) :
    (m'.decl a).name = (m.decl b).name ∧
      ((m'.decl a).parent = none ∧ (m.decl b).parent = none ∨
        ∃ c d, (m'.decl a).parent = some c ∧ (m.decl b).parent = some d ∧
          m'.localName c = m.localName d) := by
  cases ha : (m'.decl a).parent with
  | none =>
    rw [localName_of_root ha] at h
    cases hb : (m.decl b).parent with
    | none =>
      rw [localName_of_root hb] at h
      exact ⟨h, Or.inl ⟨rfl, rfl⟩⟩
    | some d => exact absurd h.symm (localName_of_parent_ne_pointless hm hb (hw'.pointless a))
  | some c =>
    cases hb : (m.decl b).parent with
    | none =>
      rw [localName_of_root hb] at h
      exact absurd h (localName_of_parent_ne_pointless hm' ha (hw.pointless b))
    | some d =>
      rw [localName_of_parent hm' ha, localName_of_parent hm hb] at h
      obtain ⟨hcd, hname⟩ := append_point_inj (hw'.pointless a) (hw.pointless b) h
      exact ⟨hname, Or.inr ⟨c, d, rfl, rfl, hcd⟩⟩

/-! ### One class gets another name -/

/-- Classes that others are nested in have different names inside a package. -/
def OuterApart (m : Model) : Prop :=
  ∀ {a b a' b'}, (m.decl a').parent = some a → (m.decl b').parent = some b →
    (m.decl a).package = (m.decl b).package → m.localName a = m.localName b → a = b

instance (m : Model) : Decidable m.WellNamed :=
  decidable_of_iff (∀ d ∈ m.classIds, Pointless (m.decl d).name ∧
      ∀ c ∈ (m.decl d).parent, (m.decl c).name ≠ "") <| by
    constructor
    · intro h
      refine ⟨fun d => ?_, fun {c d} hp => (h d (mem_classIds.mpr (lt_of_parent hp))).2 c hp⟩
      by_cases hd : d.index < m.classes.size
      · exact (h d (mem_classIds.mpr hd)).1
      · rw [decl_of_size_le (Nat.le_of_not_lt hd)]
        exact List.not_mem_nil
    · exact fun h d _ => ⟨h.pointless d, fun c hc => h.parent_ne hc⟩

instance (m : Model) : Decidable m.OuterApart :=
  decidable_of_iff (∀ d ∈ m.classIds, ∀ e ∈ m.classIds, ∀ a ∈ (m.decl d).parent,
      ∀ b ∈ (m.decl e).parent, (m.decl a).package = (m.decl b).package →
        m.localName a = m.localName b → a = b) <| by
    constructor
    · intro h a b d e ha hb
      have hd := mem_classIds.mpr (lt_of_parent ha)
      have he := mem_classIds.mpr (lt_of_parent hb)
      exact h d hd e he a ha b hb
    · exact fun h d _ e _ a ha b hb => h ha hb

/-- One class of a model gets a name that is free beside it. -/
structure Renames (m : Model) (c : ClassId) (m' : Model) : Prop where
  linked : m.Linked
  wellNamed : m.WellNamed
  wellNamed' : m'.WellNamed
  relabelled : m.Relabelled m' [c]
  outerApart : m.OuterApart
  free : ∀ d, d.index < m.classes.size → (m.decl d).parent = (m.decl c).parent →
    (m.decl d).package = (m.decl c).package → (m'.decl c).name ≠ (m.decl d).name

theorem Linked.parent_notMem_subtree (hm : m.Linked) (h : (m.decl c).parent = some b) :
    b ∉ m.subtree c := fun hb =>
  absurd (hm.parent_lt h) (Nat.not_lt.mpr (index_le_of_mem_subtree hb))

namespace Renames

variable (h : m.Renames c m')

include h

theorem linked' : m'.Linked := h.relabelled.linked h.linked

theorem decl_eq (hd : d ≠ c) : m'.decl d = m.decl d :=
  h.relabelled.decl_eq d (by simpa using hd)

theorem parent_eq (d : ClassId) : (m'.decl d).parent = (m.decl d).parent :=
  (h.relabelled.parent_eq d).1

theorem package_eq (d : ClassId) : (m'.decl d).package = (m.decl d).package :=
  (h.relabelled.parent_eq d).2

theorem localName_of_notMem (hd : d ∉ m.subtree c) : m'.localName d = m.localName d :=
  h.relabelled.localName_of_notMem (by simpa using hd)

theorem localName_ne_of_notMem (hk : k ∈ m.subtree c) (hw : w ∉ m.subtree c)
    (hlt : w.index < m.classes.size) (hp : (m.decl k).package = (m.decl w).package) :
    m'.localName k ≠ m.localName w := by
  generalize hi : k.index = i
  induction i using Nat.strongRecOn generalizing k w with
  | ind i ih =>
    intro he
    obtain ⟨hname, hpar⟩ := localName_eq_cases h.linked h.wellNamed h.linked' h.wellNamed' he
    rw [h.parent_eq] at hpar
    by_cases hkc : k = c
    · subst hkc
      rcases hpar with ⟨hroot, hwroot⟩ | ⟨b, d, hb, hd, hbd⟩
      · exact h.free w hlt (by rw [hroot, hwroot]) hp.symm hname
      · -- Both are nested in the same class, so they stand side by side.
        rw [h.localName_of_notMem (h.linked.parent_notMem_subtree hb)] at hbd
        obtain rfl := h.outerApart hb hd
          (by rw [← h.linked.package_eq hb, hp, h.linked.package_eq hd]) hbd
        exact h.free w hlt (by rw [hb, hd]) hp.symm hname
    · obtain ⟨b, hbk, hb⟩ := parent_mem_subtree hk hkc
      rcases hpar with ⟨hroot, -⟩ | ⟨b', d, hb', hd, hbd⟩
      · rw [hb] at hroot
        cases hroot
      · obtain rfl := Option.some.inj (hb.symm.trans hb')
        refine ih b.index (hi ▸ h.linked.parent_lt hb) hbk
          (fun hdm => hw (mem_subtree_of_parent h.linked hd hdm)) (h.linked.parent_lt_size hd)
          ?_ rfl hbd
        rw [← h.linked.package_eq hb, hp, h.linked.package_eq hd]

theorem localName_eq_of_mem (hk : k ∈ m.subtree c) (hw : w ∈ m.subtree c)
    (hp : (m.decl k).package = (m.decl w).package) (he : m'.localName k = m'.localName w) :
    m.localName k = m.localName w := by
  generalize hi : k.index = i
  induction i using Nat.strongRecOn generalizing k w with
  | ind i ih =>
    obtain ⟨hname, hpar⟩ := localName_eq_cases h.linked' h.wellNamed' h.linked' h.wellNamed' he
    rw [h.parent_eq, h.parent_eq] at hpar
    -- The class itself shares its new name with nothing that is nested in it.
    have hself {x : ClassId} (hx : x ∈ m.subtree c) (hxc : x ≠ c)
        (hpx : (m.decl x).package = (m.decl c).package) : m'.localName x ≠ m'.localName c := by
      intro he
      obtain ⟨b, hbm, hb⟩ := parent_mem_subtree hx hxc
      obtain ⟨-, hpar⟩ := localName_eq_cases h.linked' h.wellNamed' h.linked' h.wellNamed' he
      rw [h.parent_eq, h.parent_eq, hb] at hpar
      rcases hpar with ⟨hroot, -⟩ | ⟨b', d, hb', hd, hbd⟩
      · cases hroot
      · cases hb'
        have hdm := h.linked.parent_notMem_subtree hd
        rw [h.localName_of_notMem hdm] at hbd
        exact h.localName_ne_of_notMem hbm hdm (h.linked.parent_lt_size hd)
          (by rw [← h.linked.package_eq hb, hpx, h.linked.package_eq hd]) hbd
    by_cases hkc : k = c
    · by_cases hwc : w = c
      · rw [hkc, hwc]
      · subst hkc
        exact absurd he.symm (hself hw hwc hp.symm)
    · by_cases hwc : w = c
      · subst hwc
        exact absurd he (hself hk hkc hp)
      · obtain ⟨b, hbm, hb⟩ := parent_mem_subtree hk hkc
        obtain ⟨d, hdm, hd⟩ := parent_mem_subtree hw hwc
        rw [hb, hd] at hpar
        rcases hpar with ⟨hroot, -⟩ | ⟨b', d', hb', hd', hbd⟩
        · cases hroot
        · cases hb'
          cases hd'
          have := ih b.index (hi ▸ h.linked.parent_lt hb) hbm hdm
            (by rw [← h.linked.package_eq hb, hp, h.linked.package_eq hd]) hbd rfl
          rw [h.decl_eq hkc, h.decl_eq hwc] at hname
          rw [localName_of_parent h.linked hb, localName_of_parent h.linked hd, this, hname]

theorem localName_ne_of_mem (hc : c.index < m.classes.size) (hk : k ∈ m.subtree c)
    (hw : w ∈ m.subtree c) (hp : (m.decl k).package = (m.decl w).package) :
    m'.localName k ≠ m.localName w := by
  generalize hi : k.index = i
  induction i using Nat.strongRecOn generalizing k w with
  | ind i ih =>
    intro he
    obtain ⟨hname, hpar⟩ := localName_eq_cases h.linked h.wellNamed h.linked' h.wellNamed' he
    rw [h.parent_eq] at hpar
    by_cases hkc : k = c
    · subst hkc
      by_cases hwk : w = k
      · subst hwk
        exact h.free w hc rfl rfl hname
      · obtain ⟨d, hdm, hd⟩ := parent_mem_subtree hw hwk
        rw [hd] at hpar
        rcases hpar with ⟨-, hroot⟩ | ⟨b, d', hb, hd', hbd⟩
        · cases hroot
        · cases hd'
          have hbm := h.linked.parent_notMem_subtree hb
          rw [h.localName_of_notMem hbm] at hbd
          obtain rfl := h.outerApart hb hd
            (by rw [← h.linked.package_eq hb, hp, h.linked.package_eq hd]) hbd
          exact hbm hdm
    · obtain ⟨b, hbm, hb⟩ := parent_mem_subtree hk hkc
      rw [hb] at hpar
      rcases hpar with ⟨hroot, -⟩ | ⟨b', d, hb', hd, hbd⟩
      · cases hroot
      · cases hb'
        have hbd' : (m.decl b).package = (m.decl d).package := by
          rw [← h.linked.package_eq hb, hp, h.linked.package_eq hd]
        by_cases hwc : w = c
        · subst hwc
          exact h.localName_ne_of_notMem hbm (h.linked.parent_notMem_subtree hd)
            (h.linked.parent_lt_size hd) hbd' hbd
        · obtain ⟨d', hdm, hd'⟩ := parent_mem_subtree hw hwc
          cases hd.symm.trans hd'
          exact ih b.index (hi ▸ h.linked.parent_lt hb) hbm hdm hbd' rfl hbd

theorem localName_eq_of_eq (ha : a.index < m.classes.size) (hb : b.index < m.classes.size)
    (hp : (m.decl a).package = (m.decl b).package) (he : m'.localName a = m'.localName b) :
    m.localName a = m.localName b := by
  by_cases hac : a ∈ m.subtree c <;> by_cases hbc : b ∈ m.subtree c
  · exact h.localName_eq_of_mem hac hbc hp he
  · rw [h.localName_of_notMem hbc] at he
    exact absurd he (h.localName_ne_of_notMem hac hbc hb hp)
  · rw [h.localName_of_notMem hac] at he
    exact absurd he.symm (h.localName_ne_of_notMem hbc hac ha hp.symm)
  · rwa [h.localName_of_notMem hac, h.localName_of_notMem hbc] at he

/-- Classes that others are nested in still have different names. -/
theorem outerApart' : m'.OuterApart := by
  intro a b a' b' ha hb hp he
  rw [h.parent_eq] at ha hb
  rw [h.package_eq, h.package_eq] at hp
  exact h.outerApart ha hb hp (h.localName_eq_of_eq (h.linked.parent_lt_size ha)
    (h.linked.parent_lt_size hb) hp he)

end Renames

end Enfold.Model
