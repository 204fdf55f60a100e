import Mathlib.Data.List.Nodup
import Mathlib.Data.List.Pairwise
import Enfold.Proofs.Model.Links

/-! # The order of the walk

The walk of a linked model visits every class once, and no class before the one it is nested in.
-/

namespace Enfold

theorem idxOf_lt_idxOf_iff_mem {α : Type} [DecidableEq α] {l₁ l₂ : List α} {c x : α}
    (hc : c ∉ l₁) : (l₁ ++ c :: l₂).idxOf x < (l₁ ++ c :: l₂).idxOf c ↔ x ∈ l₁ := by
  rw [List.idxOf_append_of_notMem hc, List.idxOf_cons_self]
  constructor
  · intro h
    by_contra hx
    rw [List.idxOf_append_of_notMem hx] at h
    omega
  · intro hx
    rw [List.idxOf_append_of_mem hx]
    have := List.idxOf_lt_length_of_mem hx
    omega

namespace Model

variable {m m' : Model} {c d k l : ClassId}

theorem mem_classIds : c ∈ m.classIds ↔ c.index < m.classes.size := by
  simp only [classIds, List.mem_map, List.mem_range]
  constructor
  · rintro ⟨i, hi, rfl⟩; exact hi
  · exact fun h => ⟨c.index, h, rfl⟩

theorem nodup_classIds (m : Model) : m.classIds.Nodup :=
  List.nodup_range.map fun _ _ h => congrArg ClassId.index h

theorem mem_roots : c ∈ m.roots ↔ c.index < m.classes.size ∧ (m.decl c).parent = none := by
  simp [roots, mem_classIds]

theorem nodup_children (m : Model) (c : ClassId) : (m.children c).Nodup :=
  (nodup_classIds m).filter _

theorem nodup_roots (m : Model) : m.roots.Nodup := (nodup_classIds m).filter _

theorem subtree_eq (m : Model) (c : ClassId) :
    m.subtree c = c :: (m.children c).flatMap m.subtree := by
  rw [subtree, List.flatMap_subtype (g := m.subtree) (fun _ _ => rfl), List.unattach_attach]

/-- Induction on classes from those nested in them. -/
theorem children_induction {P : ClassId → Prop} (h : ∀ c, (∀ k ∈ m.children c, P k) → P c)
    (c : ClassId) : P c := by
  generalize hn : m.classes.size - c.index = n
  induction n using Nat.strongRecOn generalizing c with
  | ind n ih =>
    refine h c fun k hk => ih _ ?_ k rfl
    obtain ⟨hk, -, hc⟩ := mem_children.mp hk
    omega

theorem mem_subtree_self (m : Model) (c : ClassId) : c ∈ m.subtree c := by
  rw [subtree_eq]; exact List.mem_cons_self

theorem index_le_of_mem_subtree (h : d ∈ m.subtree c) : c.index ≤ d.index := by
  induction c using children_induction (m := m) with
  | h c ih =>
    rw [subtree_eq, List.mem_cons, List.mem_flatMap] at h
    rcases h with rfl | ⟨k, hk, hd⟩
    · exact Nat.le_refl _
    · exact Nat.le_trans (Nat.le_of_lt (mem_children.mp hk).2.2) (ih k hk hd)

theorem parent_mem_subtree (h : d ∈ m.subtree c) (hd : d ≠ c) :
    ∃ b ∈ m.subtree c, (m.decl d).parent = some b := by
  induction c using children_induction (m := m) with
  | h c ih =>
    rw [subtree_eq, List.mem_cons, List.mem_flatMap] at h
    rcases h with rfl | ⟨k, hk, h⟩
    · exact absurd rfl hd
    · by_cases hdk : d = k
      · exact ⟨c, mem_subtree_self m c, hdk ▸ (mem_children.mp hk).2.1⟩
      · obtain ⟨b, hb, hp⟩ := ih k hk h hdk
        refine ⟨b, ?_, hp⟩
        rw [subtree_eq]
        exact List.mem_cons_of_mem _ (List.mem_flatMap.mpr ⟨k, hk, hb⟩)

theorem sublist_subtree (h : d ∈ m.subtree c) : (m.subtree d).Sublist (m.subtree c) := by
  induction c using children_induction (m := m) with
  | h c ih =>
    rw [subtree_eq, List.mem_cons, List.mem_flatMap] at h
    rcases h with rfl | ⟨k, hk, hd⟩
    · exact List.Sublist.refl _
    · rw [subtree_eq m c, List.flatMap]
      exact ((ih k hk hd).trans (List.sublist_flatten_of_mem (List.mem_map_of_mem hk))).cons c

theorem sublist_walk (h : c ∈ m.walk) : (m.subtree c).Sublist m.walk := by
  obtain ⟨k, hk, hc⟩ := List.mem_flatMap.mp h
  rw [walk, List.flatMap]
  exact (sublist_subtree hc).trans (List.sublist_flatten_of_mem (List.mem_map_of_mem hk))

theorem mem_subtree_of_mem_children (hk : k ∈ m.children d) (hd : d ∈ m.subtree c) :
    k ∈ m.subtree c := by
  refine (sublist_subtree hd).subset ?_
  rw [subtree_eq]
  exact List.mem_cons_of_mem _ (List.mem_flatMap.mpr ⟨k, hk, mem_subtree_self m k⟩)

theorem exists_mem_children (h : d ∈ m.subtree c) (hd : d ≠ c) :
    ∃ b ∈ m.subtree c, d ∈ m.children b := by
  induction c using children_induction (m := m) with
  | h c ih =>
    rw [subtree_eq, List.mem_cons, List.mem_flatMap] at h
    obtain ⟨k, hk, h⟩ := h.resolve_left hd
    by_cases hdk : d = k
    · exact ⟨c, mem_subtree_self m c, hdk ▸ hk⟩
    · obtain ⟨b, hb, hdb⟩ := ih k hk h hdk
      have hkc := mem_subtree_of_mem_children hk (mem_subtree_self m c)
      exact ⟨b, (sublist_subtree hkc).subset hb, hdb⟩

/-- What passes from a class to the one around passes to all around. -/
theorem of_mem_subtree {P : ClassId → Prop}
    (up : ∀ {b d}, (m.decl d).parent = some b → P d → P b) (h : d ∈ m.subtree c) (hd : P d) :
    P c := by
  induction c using children_induction (m := m) with
  | h c ih =>
    rw [subtree_eq, List.mem_cons, List.mem_flatMap] at h
    rcases h with rfl | ⟨k, hk, h⟩
    · exact hd
    · exact up (mem_children.mp hk).2.1 (ih k hk h)

theorem mem_subtree_of_parent (hm : m.Linked) (h : (m.decl d).parent = some c)
    (hc : c ∈ m.subtree k) : d ∈ m.subtree k := by
  induction k using children_induction (m := m) with
  | h k ih =>
    rw [subtree_eq, List.mem_cons, List.mem_flatMap] at hc ⊢
    right
    rcases hc with rfl | ⟨l, hl, hc⟩
    · exact ⟨d, mem_children.mpr ⟨lt_of_parent h, h, hm.parent_lt h⟩, mem_subtree_self m d⟩
    · exact ⟨l, hl, ih l hl hc⟩

theorem lt_of_mem_subtree (h : d ∈ m.subtree c) (hc : c.index < m.classes.size) :
    d.index < m.classes.size := by
  by_cases hd : d = c
  · exact hd ▸ hc
  · obtain ⟨b, -, hp⟩ := parent_mem_subtree h hd
    exact lt_of_parent hp

theorem lt_of_mem_walk (h : c ∈ m.walk) : c.index < m.classes.size := by
  obtain ⟨k, hk, hc⟩ := List.mem_flatMap.mp h
  exact lt_of_mem_subtree hc (mem_roots.mp hk).1

theorem mem_walk (hm : m.Linked) : c ∈ m.walk ↔ c.index < m.classes.size := by
  constructor
  · exact lt_of_mem_walk
  · intro h
    generalize hn : c.index = n
    induction n using Nat.strongRecOn generalizing c with
    | ind n ih =>
      cases hp : (m.decl c).parent with
      | none => exact List.mem_flatMap.mpr ⟨c, mem_roots.mpr ⟨h, hp⟩, mem_subtree_self m c⟩
      | some b =>
        have hb := ih b.index (hn ▸ hm.parent_lt hp) (hm.parent_lt_size hp) rfl
        obtain ⟨k, hk, hbk⟩ := List.mem_flatMap.mp hb
        exact List.mem_flatMap.mpr ⟨k, hk, mem_subtree_of_parent hm hp hbk⟩

theorem mem_walkProperties {p : PropertyId} (hc : c ∈ m.walk) (hp : p ∈ (m.decl c).properties) :
    p ∈ m.walkProperties := List.mem_flatMap.mpr ⟨c, hc, hp⟩

theorem apart_of_siblings (hm : m.Linked) (hkl : k ≠ l)
    (hp : (m.decl k).parent = (m.decl l).parent) (hc : c ∈ m.subtree k) (hd : d ∈ m.subtree l) :
    c ≠ d := by
  rintro rfl
  generalize hn : c.index = n
  induction n using Nat.strongRecOn generalizing c with
  | ind n ih =>
    have top {k l : ClassId} (hkl : k ≠ l) (hp : (m.decl k).parent = (m.decl l).parent)
        (hk : k ∈ m.subtree l) : False := by
      obtain ⟨b, hb, hkb⟩ := parent_mem_subtree hk hkl
      exact absurd (index_le_of_mem_subtree hb) (Nat.not_le.mpr (hm.parent_lt (hp ▸ hkb)))
    by_cases hck : c = k
    · exact top hkl hp (hck ▸ hd)
    by_cases hcl : c = l
    · exact top (Ne.symm hkl) hp.symm (hcl ▸ hc)
    obtain ⟨b, hb, hcb⟩ := parent_mem_subtree hc hck
    obtain ⟨b', hb', hcb'⟩ := parent_mem_subtree hd hcl
    obtain rfl : b = b' := Option.some.inj (hcb.symm.trans hcb')
    exact ih b.index (hn ▸ hm.parent_lt hcb) hb hb' rfl

theorem ne_parent_of_siblings (hm : m.Linked) (hkl : k ≠ l)
    (hp : (m.decl k).parent = (m.decl l).parent) (hc : c ∈ m.subtree k) (hd : d ∈ m.subtree l) :
    (m.decl c).parent ≠ some d := by
  intro h
  by_cases hck : c = k
  · have := hm.parent_lt (hp ▸ hck ▸ h)
    exact absurd (index_le_of_mem_subtree hd) (Nat.not_le.mpr this)
  · obtain ⟨b, hb, hcb⟩ := parent_mem_subtree hc hck
    obtain rfl : b = d := Option.some.inj (hcb.symm.trans h)
    exact apart_of_siblings hm hkl hp hb hd rfl

/-- Two classes of the walk: the later one is not what the earlier one is nested in. -/
def Precedes (m : Model) (c d : ClassId) : Prop := c ≠ d ∧ (m.decl c).parent ≠ some d

theorem pairwise_flatMap_subtree (hm : m.Linked) {ks : List ClassId} {b : Option ClassId}
    (hn : ks.Nodup) (hb : ∀ k ∈ ks, (m.decl k).parent = b)
    (hs : ∀ k ∈ ks, (m.subtree k).Pairwise m.Precedes) :
    (ks.flatMap m.subtree).Pairwise m.Precedes := by
  rw [List.pairwise_flatMap]
  refine ⟨hs, hn.imp_of_mem fun hk hl hkl c hc d hd => ?_⟩
  have hp := (hb _ hk).trans (hb _ hl).symm
  exact ⟨apart_of_siblings hm hkl hp hc hd, ne_parent_of_siblings hm hkl hp hc hd⟩

theorem pairwise_subtree (hm : m.Linked) (c : ClassId) : (m.subtree c).Pairwise m.Precedes := by
  induction c using children_induction (m := m) with
  | h c ih =>
    rw [subtree_eq, List.pairwise_cons]
    refine ⟨fun d hd => ?_, pairwise_flatMap_subtree hm (nodup_children m c)
      (fun k hk => (mem_children.mp hk).2.1) ih⟩
    obtain ⟨k, hk, hd⟩ := List.mem_flatMap.mp hd
    have hlt : c.index < d.index :=
      Nat.lt_of_lt_of_le (mem_children.mp hk).2.2 (index_le_of_mem_subtree hd)
    refine ⟨fun e => ?_, fun h => ?_⟩
    · exact absurd (congrArg ClassId.index e) (Nat.ne_of_lt hlt)
    · exact absurd (hm.parent_lt h) (Nat.not_lt.mpr (Nat.le_of_lt hlt))

theorem pairwise_walk (hm : m.Linked) : m.walk.Pairwise m.Precedes :=
  pairwise_flatMap_subtree hm (nodup_roots m) (fun _ hk => (mem_roots.mp hk).2)
    fun k _ => pairwise_subtree hm k

theorem nodup_walk (hm : m.Linked) : m.walk.Nodup := (pairwise_walk hm).imp And.left

/-- Any part of the walk holds the classes around its own. -/
theorem parent_mem_of_walk_eq (hm : m.Linked) {l₁ l₂ : List ClassId} (h : m.walk = l₁ ++ l₂)
    (hd : d ∈ l₁) (hp : (m.decl d).parent = some c) : c ∈ l₁ := by
  have hc : c ∈ l₁ ++ l₂ := h ▸ (mem_walk hm).mpr (hm.parent_lt_size hp)
  rcases List.mem_append.mp hc with hc | hc
  · exact hc
  · have hw := h ▸ pairwise_walk hm
    exact absurd hp ((List.pairwise_append.mp hw).2.2 d hd c hc).2

theorem pairwise_walk_of_root (m : Model) :
    m.walk.Pairwise fun c d => (m.decl c).parent = none → c.index < d.index := by
  have root_eq {k c : ClassId} (hc : c ∈ m.subtree k) (hp : (m.decl c).parent = none) : c = k := by
    by_contra hne
    obtain ⟨b, -, hb⟩ := parent_mem_subtree hc hne
    rw [hp] at hb
    cases hb
  have hroots : m.roots.Pairwise fun k l => k.index < l.index := by
    apply List.Pairwise.filter
    exact List.pairwise_map.mpr List.pairwise_lt_range
  rw [walk, List.pairwise_flatMap]
  constructor
  · intro k _
    have hnodup : (m.subtree k).Pairwise fun c d => c ≠ k → (m.decl c).parent ≠ none :=
      List.pairwise_of_forall_mem_list fun c hc d _ hne hp => hne (root_eq hc hp)
    rw [subtree_eq, List.pairwise_cons] at hnodup ⊢
    refine ⟨fun d hd _ => ?_, ?_⟩
    · obtain ⟨l, hl, hd⟩ := List.mem_flatMap.mp hd
      exact Nat.lt_of_lt_of_le (mem_children.mp hl).2.2 (index_le_of_mem_subtree hd)
    · refine hnodup.2.imp_of_mem fun {c d} hc _ hne hp => ?_
      obtain ⟨l, hl, hcl⟩ := List.mem_flatMap.mp hc
      refine absurd hp (hne ?_)
      rintro rfl
      exact absurd (index_le_of_mem_subtree hcl) (Nat.not_le.mpr (mem_children.mp hl).2.2)
  · refine hroots.imp fun {k l} hlt c hc d hd hp => ?_
    rw [root_eq hc hp]
    exact Nat.lt_of_lt_of_le hlt (index_le_of_mem_subtree hd)

section Congr

variable (hs : m'.classes.size = m.classes.size)
  (hp : ∀ c, (m'.decl c).parent = (m.decl c).parent)

include hs hp

theorem subtree_congr (c : ClassId) : m'.subtree c = m.subtree c := by
  have hch (c) : m'.children c = m.children c := by simp [children, classIds, hs, hp]
  induction c using children_induction (m := m) with
  | h c ih =>
    rw [subtree_eq, subtree_eq, hch]
    exact congrArg (c :: ·) (List.flatMap_congr ih)

/-- The walk follows the parents alone. -/
theorem walk_congr : m'.walk = m.walk := by
  have hroots : m'.roots = m.roots := by simp [roots, classIds, hs, hp]
  rw [walk, walk, hroots]
  exact List.flatMap_congr fun k _ => subtree_congr hs hp k

end Congr

theorem size_eq_of_classIds {ks : List ClassId} (h : m'.classIds = m.classIds ++ ks) :
    m'.classes.size = m.classes.size + ks.length := by
  simpa [classIds] using congrArg List.length h

theorem classIds_eq_append (hs : m.classes.size ≤ m'.classes.size) :
    ∃ ks, m'.classIds = m.classIds ++ ks ∧ ∀ k ∈ ks, m.classes.size ≤ k.index := by
  obtain ⟨n, hn⟩ := Nat.exists_eq_add_of_le hs
  refine ⟨(List.range n).map fun i => ⟨m.classes.size + i⟩, ?_, fun k hk => ?_⟩
  · rw [classIds, classIds, hn, List.range_add, List.map_append, List.map_map]
    rfl
  · obtain ⟨i, -, rfl⟩ := List.mem_map.mp hk
    exact Nat.le_add_right _ _

theorem filter_subtree_of_le {n : Nat} (hc : n ≤ c.index) :
    (m.subtree c).filter (fun d => d.index < n) = [] := by
  refine List.filter_eq_nil_iff.mpr fun d hd => ?_
  simpa using Nat.le_trans hc (index_le_of_mem_subtree hd)

theorem filter_flatMap_subtree {n : Nat} {ks ls : List ClassId}
    (hk : ∀ k ∈ ks, (m'.subtree k).filter (fun d => d.index < n) = m.subtree k)
    (hl : ∀ k ∈ ls, n ≤ k.index) :
    ((ks ++ ls).flatMap m'.subtree).filter (fun d => d.index < n) = ks.flatMap m.subtree := by
  have hnil : ls.flatMap (fun k => (m'.subtree k).filter fun d => d.index < n) = [] :=
    List.flatMap_eq_nil_iff.mpr fun k h => filter_subtree_of_le (hl k h)
  rw [List.filter_flatMap, List.flatMap_append, hnil, List.append_nil, List.flatMap_congr hk]

/-- Classes that come into a model later leave the others in their order. -/
theorem filter_walk (hs : m.classes.size ≤ m'.classes.size)
    (hp : ∀ c, c.index < m.classes.size → (m'.decl c).parent = (m.decl c).parent) :
    m'.walk.filter (fun c => c.index < m.classes.size) = m.walk := by
  obtain ⟨ks, hids, hks⟩ := classIds_eq_append hs
  have hold {f g : ClassId → Bool} (h : ∀ c, c.index < m.classes.size → f c = g c) :
      m'.classIds.filter f = m.classIds.filter g ++ ks.filter f := by
    rw [hids, List.filter_append]
    congr 1
    exact List.filter_congr fun c hc => h c (mem_classIds.mp hc)
  have hsub (c : ClassId) (hc : c.index < m.classes.size) :
      (m'.subtree c).filter (fun d => d.index < m.classes.size) = m.subtree c := by
    induction c using children_induction (m := m) with
    | h c ih =>
      have hch : m'.children c = m.children c ++ _ := hold fun k hk => by rw [hp k hk]
      rw [subtree_eq, List.filter_cons_of_pos (by simpa using hc), hch, subtree_eq m]
      exact congrArg (c :: ·) (filter_flatMap_subtree
        (fun k hk => ih k hk (mem_children.mp hk).1) fun k hk => hks k (List.mem_of_mem_filter hk))
  have hroots : m'.roots = m.roots ++ _ := hold fun k hk => by rw [hp k hk]
  rw [walk, hroots]
  exact filter_flatMap_subtree (fun k hk => hsub k (mem_roots.mp hk).1)
    fun k hk => hks k (List.mem_of_mem_filter hk)

end Model
end Enfold
