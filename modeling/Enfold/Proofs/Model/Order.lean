import Enfold.Proofs.Model.Names
import Enfold.Proofs.Model.Walk

/-! # Models that are walked in the order of creation

If each nested class comes right after the class around it or after something nested in that, the
classes below a class are those of an interval, and the walk visits all classes as they were created.
-/

namespace Enfold.Model

variable {m : Model} {c d k l x : ClassId}

/-- The class before a nested one is the class around it, or stands below that. -/
def InOrder (m : Model) : Prop :=
  ∀ {b d}, (m.decl d).parent = some b → ⟨d.index - 1⟩ ∈ m.subtree b

namespace InOrder

theorem mem_subtree (ho : m.InOrder) (hd : d ∈ m.subtree k)
    (hk : k.index ≤ x.index) (hx : x.index ≤ d.index) : x ∈ m.subtree k := by
  generalize hi : d.index = i at hx
  induction i generalizing d with
  | zero =>
    obtain rfl : x = d := by cases x; cases d; simp_all
    exact hd
  | succ i ih =>
    by_cases hxd : x.index = i + 1
    · obtain rfl : x = d := by cases x; cases d; simp_all
      exact hd
    · have hdk : d ≠ k := by rintro rfl; omega
      obtain ⟨b, hb, hp⟩ := parent_mem_subtree hd hdk
      have hprev : ⟨d.index - 1⟩ ∈ m.subtree k := (sublist_subtree hb).subset (ho hp)
      exact ih hprev (by simp [hi]) (by omega)

theorem lt_of_siblings (ho : m.InOrder) (hm : m.Linked) (hkl : k.index < l.index)
    (hp : (m.decl k).parent = (m.decl l).parent) (hc : c ∈ m.subtree k) (hd : d ∈ m.subtree l) :
    c.index < d.index := by
  by_contra hlt
  have hl : l ∈ m.subtree k :=
    ho.mem_subtree hc (Nat.le_of_lt hkl) (Nat.le_trans (index_le_of_mem_subtree hd) (by omega))
  have hne : k ≠ l := by rintro rfl; omega
  exact apart_of_siblings hm hne hp hl (mem_subtree_self m l) rfl

theorem pairwise_flatMap (ho : m.InOrder) (hm : m.Linked) {ks : List ClassId} {b : Option ClassId}
    (hks : ks.Pairwise fun k l => k.index < l.index) (hb : ∀ k ∈ ks, (m.decl k).parent = b)
    (hs : ∀ k ∈ ks, (m.subtree k).Pairwise fun c d => c.index < d.index) :
    (ks.flatMap m.subtree).Pairwise fun c d => c.index < d.index := by
  rw [List.pairwise_flatMap]
  refine ⟨hs, hks.imp_of_mem fun hk hl hkl c hc d hd => ?_⟩
  exact ho.lt_of_siblings hm hkl ((hb _ hk).trans (hb _ hl).symm) hc hd

end InOrder

theorem pairwise_classIds (m : Model) : m.classIds.Pairwise fun c d => c.index < d.index :=
  List.pairwise_map.mpr List.pairwise_lt_range

theorem InOrder.pairwise_subtree (ho : m.InOrder) (hm : m.Linked) (c : ClassId) :
    (m.subtree c).Pairwise fun c d => c.index < d.index := by
  induction c using children_induction (m := m) with
  | h c ih =>
    rw [subtree_eq, List.pairwise_cons]
    refine ⟨fun d hd => ?_, ?_⟩
    · obtain ⟨k, hk, hd⟩ := List.mem_flatMap.mp hd
      exact Nat.lt_of_lt_of_le (mem_children.mp hk).2.2 (index_le_of_mem_subtree hd)
    · exact ho.pairwise_flatMap hm ((pairwise_classIds m).filter _)
        (fun k hk => (mem_children.mp hk).2.1) ih

/-- The walk visits the classes in the order in which they were created. -/
theorem InOrder.walk_eq (ho : m.InOrder) (hm : m.Linked) : m.walk = m.classIds := by
  have hwalk : m.walk.Pairwise fun c d => c.index < d.index :=
    ho.pairwise_flatMap hm ((pairwise_classIds m).filter _) (fun k hk => (mem_roots.mp hk).2)
      fun k _ => ho.pairwise_subtree hm k
  have hperm : m.walk.Perm m.classIds :=
    (List.perm_ext_iff_of_nodup (nodup_walk hm) (nodup_classIds m)).mpr fun c => by
      rw [mem_walk hm, mem_classIds]
  exact hperm.eq_of_pairwise (fun c d _ _ hcd hdc => absurd hcd (Nat.lt_asymm hdc)) hwalk
    (pairwise_classIds m)

/-! ### Classes that come in at the end -/

/-- What was there is there as it was. -/
structure GrowsInto (m m' : Model) : Prop where
  size_le : m.classes.size ≤ m'.classes.size
  properties_le : m.properties.size ≤ m'.properties.size
  decl_eq : ∀ {c : ClassId}, c.index < m.classes.size → m'.decl c = m.decl c
  prop_eq : ∀ {p : PropertyId}, p.index < m.properties.size → m'.prop p = m.prop p

namespace GrowsInto

variable {m' m'' : Model}

theorem refl (m : Model) : m.GrowsInto m := ⟨Nat.le_refl _, Nat.le_refl _, fun _ => rfl, fun _ => rfl⟩

theorem trans (h : m.GrowsInto m') (h' : m'.GrowsInto m'') : m.GrowsInto m'' where
  size_le := Nat.le_trans h.size_le h'.size_le
  properties_le := Nat.le_trans h.properties_le h'.properties_le
  decl_eq hc := (h'.decl_eq (Nat.lt_of_lt_of_le hc h.size_le)).trans (h.decl_eq hc)
  prop_eq hp := (h'.prop_eq (Nat.lt_of_lt_of_le hp h.properties_le)).trans (h.prop_eq hp)

theorem mem_subtree (h : m.GrowsInto m') (hc : c.index < m.classes.size) (hd : d ∈ m.subtree c) :
    d ∈ m'.subtree c := by
  induction c using children_induction (m := m) with
  | h c ih =>
    rw [subtree_eq, List.mem_cons, List.mem_flatMap] at hd
    rcases hd with rfl | ⟨k, hk, hd⟩
    · exact mem_subtree_self m' d
    · obtain ⟨hlt, hp, hck⟩ := mem_children.mp hk
      have hk' : k ∈ m'.children c := mem_children.mpr
        ⟨Nat.lt_of_lt_of_le hlt h.size_le, by rwa [h.decl_eq hlt], hck⟩
      have hkc := mem_subtree_of_mem_children hk' (mem_subtree_self m' c)
      exact (sublist_subtree hkc).subset (ih k hk hlt hd)

theorem localName_eq (h : m.GrowsInto m') (hm : m.Linked) (hc : c.index < m.classes.size) :
    m'.localName c = m.localName c :=
  localName_congr_of (P := fun c => c.index < m.classes.size) (fun hc => by rw [h.decl_eq hc])
    (fun hc => by rw [h.decl_eq hc]) (fun _ hp => hm.parent_lt_size hp) hc

end GrowsInto

/-- A class that comes in below the last one keeps the order. -/
theorem InOrder.extend {m' : Model} (ho : m.InOrder) (hm : m.Linked) (hx : m.GrowsInto m')
    (hs : m'.classes.size = m.classes.size + 1)
    (hnew : ∀ b, (m'.decl ⟨m.classes.size⟩).parent = some b →
      b.index < m.classes.size ∧ ⟨m.classes.size - 1⟩ ∈ m.subtree b) : m'.InOrder := by
  intro b d hp
  by_cases hd : d.index < m.classes.size
  · rw [hx.decl_eq hd] at hp
    exact hx.mem_subtree (hm.parent_lt_size hp) (ho hp)
  · have hlt := lt_of_parent hp
    obtain rfl : d = ⟨m.classes.size⟩ := ClassId.eq_mk (by omega)
    obtain ⟨hb, hlast⟩ := hnew b hp
    exact hx.mem_subtree hb hlast

end Enfold.Model
