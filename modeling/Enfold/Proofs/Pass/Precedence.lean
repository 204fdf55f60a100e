import Enfold.Proofs.Pass.Run

/-! # Which classes keep their names

Placement gives a name to the first class of the walk that claims it. The classes that were there
before a run come before all wrappers but those that are nested in a class before them, so only the
name of a nested wrapper can take the name of such a class away.
-/

namespace Enfold

variable {m m' : Model} {s t : PassState} {c d w : ClassId} {rs : List Record} {p : Pass}
  {result : PassResult}

def Model.Before (m : Model) (c d : ClassId) : Prop := m.walk.idxOf c < m.walk.idxOf d

instance (m : Model) (c d : ClassId) : Decidable (m.Before c d) :=
  inferInstanceAs (Decidable (_ < _))

namespace Model

theorem Linked.before_iff (hm : m.Linked) {done rest : List ClassId}
    (hw : m.walk = done ++ c :: rest) : m.Before d c ↔ d ∈ done := by
  have hnodup := List.nodup_append.mp (hw ▸ nodup_walk hm)
  unfold Before
  rw [hw]
  exact idxOf_lt_idxOf_iff_mem fun hc => hnodup.2.2 c hc c List.mem_cons_self rfl

/-- A class comes after all that are around it. -/
theorem Linked.before_of_mem_subtree (hm : m.Linked) (hc : c ∈ m.walk) (h : c ∈ m.subtree d)
    (hne : c ≠ d) : m.Before d c := by
  obtain ⟨done, rest, hw⟩ := List.append_of_mem hc
  have hw' : m.walk = (done ++ [c]) ++ rest := by simp [hw]
  have hd : d ∈ done ++ [c] := of_mem_subtree (P := (· ∈ done ++ [c]))
    (fun hp hd => parent_mem_of_walk_eq hm hw' hd hp) h (by simp)
  refine (hm.before_iff hw).mpr ((List.mem_append.mp hd).resolve_right fun hd => ?_)
  exact hne (List.mem_singleton.mp hd).symm

theorem Linked.lt_of_before (hm : m.Linked) (hd : d ∈ m.walk) (h : m.Before c d)
    (hp : (m.decl c).parent = none) : c.index < d.index := by
  obtain ⟨done, rest, hw⟩ := List.append_of_mem hd
  have hc := (hm.before_iff hw).mp h
  have hpair := hw ▸ m.pairwise_walk_of_root
  exact (List.pairwise_append.mp hpair).2.2 c hc d List.mem_cons_self hp

end Model

namespace Pass

theorem mem_renamed_iff_of_run (hm : s.model.Linked) (h : p.run.run s = .ok result t)
    (hc : c ∈ s.model.walk) (hup : ∀ d ∈ result.renamed, d ≠ c → c ∉ t.model.subtree d) :
    c ∈ result.renamed ↔
      ∃ d ∈ t.model.walk, t.model.Before d c ∧
        t.model.qualifiedName d = s.model.qualifiedName c := by
  obtain ⟨v, w, hp, ht, hv⟩ := advanced_of_run hm h
  have hrel := placeClasses_relabelled hp
  rw [ht]
  rw [ht] at hup
  have hcv : c ∈ v.model.walk := (hv.mem_walk_iff hm).mpr (Or.inl hc)
  obtain ⟨done, rest, hsplit⟩ := List.append_of_mem hcv
  have hiff := mem_renamed_iff hv.linked hp hsplit fun d hd hne => by
    rw [← hrel.subtree_eq]
    exact hup d hd hne
  rw [hiff, hv.qualifiedName_eq hm hc]
  have hbefore {d} := (hrel.linked hv.linked).before_iff (d := d) (hrel.walk_eq.trans hsplit)
  constructor
  · rintro ⟨d, hd, hq⟩
    refine ⟨d, ?_, hbefore.mpr hd, hq⟩
    rw [hrel.walk_eq, hsplit]
    exact List.mem_append_left _ hd
  · rintro ⟨d, -, hd, hq⟩
    exact ⟨d, hbefore.mp hd, hq⟩

theorem qualifiedName_eq_of_run (hm : s.model.Linked) (h : p.run.run s = .ok result t)
    (hc : c ∈ s.model.walk) (hup : ∀ d ∈ result.renamed, c ∉ t.model.subtree d) :
    t.model.qualifiedName c = s.model.qualifiedName c := by
  obtain ⟨v, w, hp, ht, hv⟩ := advanced_of_run hm h
  have hrel := placeClasses_relabelled hp
  rw [ht] at hup ⊢
  rw [hrel.qualifiedName_of_notMem fun d hd => ?_, hv.qualifiedName_eq hm hc]
  rw [← hrel.subtree_eq]
  exact hup d hd

theorem mem_walk_iff_of_run (hm : s.model.Linked) (h : p.run.run s = .ok result t) :
    c ∈ t.model.walk ↔ c ∈ s.model.walk ∨ c ∈ result.wrappers := by
  obtain ⟨v, w, hp, ht, hv⟩ := advanced_of_run hm h
  rw [ht, (placeClasses_relabelled hp).walk_eq]
  exact hv.mem_walk_iff hm

theorem notMem_walk_of_run (hm : s.model.Linked) (h : p.run.run s = .ok result t)
    (hw : w ∈ result.wrappers) : w ∉ s.model.walk := by
  obtain ⟨v, u, -, -, hv⟩ := advanced_of_run hm h
  exact hv.notMem_walk hm hw

theorem linked_of_run (hm : s.model.Linked) (h : p.run.run s = .ok result t) : t.model.Linked := by
  obtain ⟨v, w, hp, ht, hv⟩ := advanced_of_run hm h
  exact ht ▸ (placeClasses_relabelled hp).linked hv.linked

theorem renamed_subset_of_run (hm : s.model.Linked) (h : p.run.run s = .ok result t) :
    result.renamed ⊆ t.model.walk := by
  obtain ⟨v, w, hp, ht, -⟩ := advanced_of_run hm h
  rw [ht, (placeClasses_relabelled hp).walk_eq]
  exact renamed_subset_walk hp

theorem mem_walk_of_mem_subtree (hm : s.model.Linked) (hc : c ∈ s.model.walk)
    (h : c ∈ m.subtree d) : d ∈ s.model.walk := by
  rw [Model.mem_walk hm] at hc ⊢
  exact Nat.lt_of_le_of_lt (Model.index_le_of_mem_subtree h) hc

/-- A wrapper before an old class is nested in its owner. -/
theorem isSome_parent_of_before (hm : s.model.Linked) (h : p.run.run s = .ok result t)
    (hw : w ∈ result.wrappers) (hc : c ∈ s.model.walk) (hb : t.model.Before w c) :
    (t.model.decl w).parent.isSome := by
  by_contra hp
  have hroot : (t.model.decl w).parent = none := by simpa using hp
  have hafter := (mem_walk_iff_of_run hm h).mpr (Or.inl hc)
  have hlt := (linked_of_run hm h).lt_of_before hafter hb hroot
  have hnot := notMem_walk_of_run hm h hw
  rw [Model.mem_walk hm] at hc hnot
  exact hnot (Nat.lt_trans hlt hc)

theorem notMem_renamed_of_run (hm : s.model.Linked)
    (hn : (s.model.walk.map s.model.qualifiedName).Nodup) (h : p.run.run s = .ok result t)
    (hfree : ∀ w ∈ result.wrappers, ∀ c ∈ s.model.walk,
      t.model.Before w c → t.model.qualifiedName w ≠ s.model.qualifiedName c)
    (hc : c ∈ s.model.walk) : c ∉ result.renamed := by
  -- The induction is on the place in the walk: nothing before the class is renamed, unless it is a
  -- wrapper.
  generalize hi : t.model.walk.idxOf c = i
  induction i using Nat.strongRecOn generalizing c with
  | ind i ih =>
    subst hi
    intro hr
    have earlier {d : ClassId} (hd : d ∈ s.model.walk) (hb : t.model.Before d c) :
        d ∉ result.renamed := ih _ hb hd rfl
    have around {e : ClassId} (he : e ∈ s.model.walk) (hb : e = c ∨ t.model.Before e c) :
        ∀ d ∈ result.renamed, d ≠ e → e ∉ t.model.subtree d := by
      intro d hd hne hmem
      have hde := (linked_of_run hm h).before_of_mem_subtree
        ((mem_walk_iff_of_run hm h).mpr (Or.inl he)) hmem hne.symm
      refine earlier (mem_walk_of_mem_subtree hm he hmem) ?_ hd
      rcases hb with rfl | hb
      · exact hde
      · exact Nat.lt_trans hde hb
    obtain ⟨d, hd, hb, hq⟩ := (mem_renamed_iff_of_run hm h hc (around hc (Or.inl rfl))).mp hr
    rcases (mem_walk_iff_of_run hm h).mp hd with hd | hd
    · -- A class that was there keeps its name too, and no two of them shared one.
      have hkeep := qualifiedName_eq_of_run hm h hd fun e he hmem => by
        by_cases hed : e = d
        · exact earlier hd hb (hed ▸ he)
        · exact around hd (Or.inr hb) e he hed hmem
      obtain rfl := List.inj_on_of_nodup_map hn hd hc (hkeep.symm.trans hq)
      exact absurd hb (Nat.lt_irrefl _)
    · exact hfree d hd c hc hb hq

/-- A run renames nothing but wrappers exactly if no wrapper has the name of an old class behind it.
-/
theorem renamed_subset_iff_of_run (hm : s.model.Linked)
    (hn : (s.model.walk.map s.model.qualifiedName).Nodup) (h : p.run.run s = .ok result t) :
    (result.renamed ⊆ result.wrappers ↔ ∀ w ∈ result.wrappers, ∀ c ∈ s.model.walk,
      t.model.Before w c → t.model.qualifiedName w ≠ s.model.qualifiedName c) ∧
    ∀ w ∈ result.wrappers, ∀ c ∈ s.model.walk, t.model.Before w c →
      (t.model.decl w).parent.isSome := by
  refine ⟨⟨fun hsub w hw c hc hb hq => ?_, fun hfree c hr => ?_⟩, fun w hw c hc hb => ?_⟩
  · have hnot {d : ClassId} (hd : d ∈ s.model.walk) : d ∉ result.renamed := fun hr =>
      notMem_walk_of_run hm h (hsub hr) hd
    refine hnot hc ((mem_renamed_iff_of_run hm h hc fun d hd _ hmem => ?_).mpr
      ⟨w, (mem_walk_iff_of_run hm h).mpr (Or.inr hw), hb, hq⟩)
    exact hnot (mem_walk_of_mem_subtree hm hc hmem) hd
  · rcases (mem_walk_iff_of_run hm h).mp (renamed_subset_of_run hm h hr) with hc | hc
    · exact absurd hr (notMem_renamed_of_run hm hn h hfree hc)
    · exact hc
  · exact isSome_parent_of_before hm h hw hc hb

/-- Orders with items, and a class of items in a package of their name. -/
def shadowedItems : Value :=
  .object [("package", .text "shop"), ("classes", .list [
    .object [("name", .text "Order"), ("properties", .list [
      .object [("name", .text "item"), ("repeated", .bool true)]])],
    .object [("name", .text "Items"), ("package", .text "shop.Order")]])]

theorem renamed_subset_iff_of_shadowedItems_run : ∃ m result t,
    Model.ofValue shadowedItems = .ok m ∧
    (⟨{ nested := .bool true }, none, {}⟩ : Pass).run.run { model := m } = .ok result t ∧
      (m.walk.map m.qualifiedName).Nodup ∧
      result.wrappers.map t.model.qualifiedName = ["shop.Order.Items"] ∧
      result.renamed.map t.model.qualifiedName = ["shop.Order.Items1"] ∧
      (result.renamed ⊆ result.wrappers ↔ ∀ w ∈ result.wrappers, ∀ c ∈ m.walk,
        t.model.Before w c → t.model.qualifiedName w ≠ m.qualifiedName c) ∧
      ∀ w ∈ result.wrappers, ∀ c ∈ m.walk, t.model.Before w c →
        (t.model.decl w).parent.isSome := by
  obtain ⟨m, result, t, hm, hr, hn, hw, hrenamed⟩ := exists_run_of_ran?
    ⟨{ nested := .bool true }, none, {}⟩ shadowedItems (fun m result t =>
      (m.walk.map m.qualifiedName).Nodup ∧
        result.wrappers.map t.model.qualifiedName = ["shop.Order.Items"] ∧
        result.renamed.map t.model.qualifiedName = ["shop.Order.Items1"]) (by decide +kernel)
  exact ⟨m, result, t, hm, hr, hn, hw, hrenamed,
    renamed_subset_iff_of_run (Model.described_ofValue hm).toLinked hn hr⟩

/-- So it is not true that a run renames nothing but wrappers. -/
theorem existing_class_renamed : ¬ ∀ (v : Value) (p : Pass) (s t : PassState)
    (result : PassResult), Model.ofValue v = .ok s.model →
      (s.model.walk.map s.model.qualifiedName).Nodup → p.run.run s = .ok result t →
        ∀ c ∈ result.renamed, c ∈ result.wrappers := by
  intro claim
  obtain ⟨m, result, t, hm, hr, hn, c, hc, hnot⟩ := exists_run_of_ran?
    ⟨{ nested := .bool true }, none, {}⟩ shadowedItems (fun m result _ =>
      (m.walk.map m.qualifiedName).Nodup ∧ ∃ c ∈ result.renamed, c ∉ result.wrappers)
    (by decide +kernel)
  exact hnot (claim shadowedItems _ { model := m } t result hm hn hr c hc)

end Pass
end Enfold
