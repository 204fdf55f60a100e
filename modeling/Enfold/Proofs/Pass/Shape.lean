import Enfold.Proofs.Pass.Advance

/-! # The shape of the rewrite

After a run the list of a class is its former list with each candidate dropped or replaced where it
stood, and there is one wrapper for each record that was not dropped. No other property changes.
-/

namespace Enfold

/-- What stands in the place of a property after some records. -/
def slot (rs : List Record) (p : PropertyId) : List PropertyId :=
  match rs.find? fun r => r.candidate.prop = p with
  | none => [p]
  | some r => if r.deleted then [] else r.reference.toList

/-- The reference `q` holds a single wrapper `w`, and this holds the candidate and its text. -/
structure Record.Settles (n : Naming) (m m' : Model) (r : Record) (w : ClassId) (q : PropertyId) :
    Prop where
  wrapper : r.wrapper = some w
  reference : r.reference = some q
  class_new : m.classes.size ≤ w.index
  reference_new : m.properties.size ≤ q.index
  isWrapper : (m'.decl w).isWrapper = true
  standIn : ∃ field typeName i, m'.prop q = { (m.prop r.candidate.prop).standIn
    r.candidate.owner w field typeName with implementationType := i }
  moved : m'.prop r.candidate.prop = (m.prop r.candidate.prop).moved w
    (n.itemFieldName (m.prop r.candidate.prop).name r.candidate.directive.fieldName)
    r.candidate.directive
  alone : (m.prop r.candidate.prop).kind ≠ .mixed →
    (m'.decl w).properties = [r.candidate.prop]
  mixed : (m.prop r.candidate.prop).kind = .mixed → ∃ x,
    (m'.decl w).properties = [r.candidate.prop, x] ∧
      m'.prop x = Property.textRuns w r.candidate.directive

/-- How a model arises from another by the records of a run. -/
structure Reshaped (n : Naming) (m : Model) (rs : List Record) (m' : Model) : Prop where
  linked : m'.Linked
  mem : ∀ r ∈ rs, r.candidate.prop ∈ (m.decl r.candidate.owner).properties
  classIds : m'.classIds = m.classIds ++ wrappersOf rs
  size_le : m.properties.size ≤ m'.properties.size
  properties : ∀ c, c.index < m.classes.size →
    (m'.decl c).properties = (m.decl c).properties.flatMap (slot rs)
  settled : ∀ r ∈ rs, r.deleted = false → ∃ w q, r.Settles n m m' w q
  dropped : ∀ r ∈ rs, r.deleted = true →
    m'.prop r.candidate.prop = { m.prop r.candidate.prop with owner := none }
  prop_eq : ∀ p, p.index < m.properties.size → (∀ r ∈ rs, r.candidate.prop ≠ p) →
    m'.prop p = m.prop p
  referred : ∀ q w, (m'.prop q).reference = some w →
    ∃ r ∈ rs, r.deleted = false ∧ r.wrapper = some w ∧ r.reference = some q

variable {n : Naming} {m m' m'' : Model} {rs : List Record} {r : Record} {k : Candidate}
  {p q x : PropertyId} {c d w : ClassId} {plan : WrapperPlan}

/-! ### Places -/

theorem slot_of_ne (h : ∀ r ∈ rs, r.candidate.prop ≠ p) : slot rs p = [p] := by
  have : rs.find? (fun r => r.candidate.prop = p) = none := by simpa using h
  rw [slot, this]

theorem slot_append_of_ne (h : r.candidate.prop ≠ p) : slot (rs ++ [r]) p = slot rs p := by
  have : (rs ++ [r]).find? (fun r => r.candidate.prop = p) =
      rs.find? fun r => r.candidate.prop = p := by simp [List.find?_append, h]
  rw [slot, slot, this]

theorem slot_append_self (h : ∀ r' ∈ rs, r'.candidate.prop ≠ r.candidate.prop) :
    slot (rs ++ [r]) r.candidate.prop = if r.deleted then [] else r.reference.toList := by
  have hn : rs.find? (fun r' => r'.candidate.prop = r.candidate.prop) = none := by simpa using h
  have : (rs ++ [r]).find? (fun r' => r'.candidate.prop = r.candidate.prop) = some r := by
    simp [List.find?_append, hn]
  rw [slot, this]

theorem slot_of_mem (hd : (rs.map fun r => r.candidate.prop).Nodup) (hr : r ∈ rs) :
    slot rs r.candidate.prop = if r.deleted then [] else r.reference.toList := by
  have hfind : rs.find? (fun r' => r'.candidate.prop = r.candidate.prop) = some r := by
    obtain ⟨l₁, l₂, rfl⟩ := List.append_of_mem hr
    rw [List.map_append, List.nodup_append] at hd
    have hnone : l₁.find? (fun r' => r'.candidate.prop = r.candidate.prop) = none := by
      refine List.find?_eq_none.mpr fun r' hr' he => ?_
      refine hd.2.2 r'.candidate.prop ?_ r.candidate.prop (by simp) (by simpa using he)
      exact List.mem_map.mpr ⟨r', hr', rfl⟩
    simp [List.find?_append, hnone]
  rw [slot, hfind]

namespace Reshaped

theorem eq_or_new_of_mem_slot (h : Reshaped n m rs m') (hx : x ∈ slot rs p) :
    x = p ∨ m.properties.size ≤ x.index := by
  unfold slot at hx
  split at hx
  · exact Or.inl (List.mem_singleton.mp hx)
  · next r hr =>
    right
    split at hx
    · cases hx
    · next hd =>
      obtain ⟨w, q, hs⟩ := h.settled r (List.mem_of_find?_eq_some hr) (by simpa using hd)
      rw [hs.reference, Option.mem_toList] at hx
      exact Option.some.inj hx ▸ hs.reference_new

theorem notMem_slot (h : Reshaped n m rs m') (hp : p.index < m.properties.size) (hx : x ≠ p) :
    p ∉ slot rs x := fun hm =>
  (h.eq_or_new_of_mem_slot hm).elim (fun e => hx e.symm) fun hn => absurd hp (Nat.not_lt.mpr hn)

theorem size_classes_le (h : Reshaped n m rs m') : m.classes.size ≤ m'.classes.size := by
  rw [Model.size_eq_of_classIds h.classIds]
  exact Nat.le_add_right _ _

/-- A place holds its property, or what its record has put there. -/
theorem slot_cases (h : Reshaped n m rs m') (hp : p.index < m.properties.size) :
    ((∀ r ∈ rs, r.candidate.prop ≠ p) ∧ slot rs p = [p] ∧ m'.prop p = m.prop p) ∨
      ∃ r ∈ rs, r.candidate.prop = p ∧
      (r.deleted = true ∧ slot rs p = [] ∨
        r.deleted = false ∧ ∃ w q, slot rs p = [q] ∧ r.Settles n m m' w q) := by
  unfold slot
  cases hf : rs.find? fun r => r.candidate.prop = p with
  | none =>
    have hne : ∀ r ∈ rs, r.candidate.prop ≠ p := by simpa using hf
    exact Or.inl ⟨hne, rfl, h.prop_eq p hp hne⟩
  | some r =>
    have hr := List.mem_of_find?_eq_some hf
    refine Or.inr ⟨r, hr, by simpa using List.find?_some hf, ?_⟩
    cases hd : r.deleted with
    | true => exact Or.inl ⟨rfl, if_pos hd⟩
    | false =>
      obtain ⟨w, q, hs⟩ := h.settled r hr hd
      exact Or.inr ⟨rfl, w, q, by simp [hd, hs.reference], hs⟩

theorem mem_of_fresh (h : Reshaped n m rs m') (hm : m.Linked)
    (hk : k.Fresh m rs) :
    k.prop ∈ (m'.decl k.owner).properties ∧ m'.prop k.prop = m.prop k.prop := by
  refine ⟨?_, h.prop_eq _ (hm.lt_of_mem hk.mem) hk.ne⟩
  rw [h.properties _ (Model.class_lt_of_mem hk.mem)]
  exact List.mem_flatMap.mpr ⟨k.prop, hk.mem, by simp [slot_of_ne hk.ne]⟩

end Reshaped

theorem Record.Settles.mem_properties (h : r.Settles n m m' w q) :
    r.candidate.prop ∈ (m'.decl w).properties := by
  by_cases hk : (m.prop r.candidate.prop).kind = .mixed
  · obtain ⟨x, hx, -⟩ := h.mixed hk
    simp [hx]
  · simp [h.alone hk]

theorem Record.Settles.eq_or_textRuns (h : r.Settles n m m' w q)
    (hx : x ∈ (m'.decl w).properties) :
    x = r.candidate.prop ∨ m'.prop x = Property.textRuns w r.candidate.directive := by
  by_cases hk : (m.prop r.candidate.prop).kind = .mixed
  · obtain ⟨y, hy, ht⟩ := h.mixed hk
    rw [hy, List.mem_cons, List.mem_singleton] at hx
    refine hx.imp_right ?_
    rintro rfl
    exact ht
  · rw [h.alone hk] at hx
    exact Or.inl (List.mem_singleton.mp hx)

theorem Record.Settles.congr (h : r.Settles n m m' w q)
    (hd : (m''.decl w).properties = (m'.decl w).properties ∧
      (m''.decl w).isWrapper = (m'.decl w).isWrapper)
    (hq : ∃ i, m''.prop q = { m'.prop q with implementationType := i })
    (hp : ∀ p ∈ (m'.decl w).properties, m''.prop p = m'.prop p) : r.Settles n m m'' w q := by
  refine { h with
    isWrapper := hd.2.trans h.isWrapper
    moved := (hp _ h.mem_properties).trans h.moved
    alone := fun hk => hd.1.trans (h.alone hk)
    standIn := ?_, mixed := fun hk => ?_ }
  · obtain ⟨field, typeName, i, hs⟩ := h.standIn
    obtain ⟨j, hq⟩ := hq
    exact ⟨field, typeName, j, by rw [hq, hs]⟩
  · obtain ⟨x, hx, ht⟩ := h.mixed hk
    exact ⟨x, hd.1.trans hx, (hp x (by simp [hx])).trans ht⟩

/-! ### One more record -/

/-- Two models that differ in a candidate and its owner alone. -/
structure Model.AgreeBeside (k : Candidate) (m m' : Model) : Prop where
  class_eq : ∀ {d}, d.index < m.classes.size → d ≠ k.owner → m'.decl d = m.decl d
  prop_eq : ∀ {p}, p.index < m.properties.size → p ≠ k.prop → m'.prop p = m.prop p

theorem Model.agreeBeside_of_wraps (h : m.Wraps k plan m' w q) : m.AgreeBeside k m' where
  class_eq hd hdk := by
    refine h.class_eq ?_ hdk
    rintro rfl
    rw [h.wrapper_eq] at hd
    exact absurd hd (Nat.lt_irrefl _)
  prop_eq hp hpk := by
    refine h.prop_eq hpk (fun he => ?_) ?_
    · rw [eq_of_mem_extras he] at hp
      exact absurd hp (Nat.lt_irrefl _)
    · rintro rfl
      rw [h.reference_eq] at hp
      exact absurd hp (Nat.not_lt.mpr (Nat.le_add_right _ _))

theorem Model.agreeBeside_unlink (hk : k.prop ∈ (m.decl k.owner).properties)
    (hp : k.prop.index < m.properties.size) : m.AgreeBeside k (m.unlink k.owner k.prop) where
  class_eq _ hd := by rw [decl_unlink (class_lt_of_mem hk), if_neg hd]
  prop_eq _ hq := by rw [prop_unlink hp, if_neg hq]

def Record.inPlace (r : Record) : List PropertyId :=
  if r.deleted then [] else r.reference.toList

namespace Reshaped

theorem settles_of_agree (h : Reshaped n m rs m') (hk : k.prop ∈ (m'.decl k.owner).properties)
    (hkm : k.prop.index < m.properties.size) (hko : k.owner.index < m.classes.size)
    (ha : m'.AgreeBeside k m'') (hs : r.Settles n m m' w q) : r.Settles n m m'' w q := by
  have hwk : w ≠ k.owner := by
    rintro rfl
    exact absurd hko (Nat.not_lt.mpr hs.class_new)
  have hqk : q ≠ k.prop := by
    rintro rfl
    exact absurd hkm (Nat.not_lt.mpr hs.reference_new)
  have hd := ha.class_eq (Model.class_lt_of_mem hs.mem_properties) hwk
  have hq : q.index < m'.properties.size := by
    obtain ⟨_, _, _, hi⟩ := hs.standIn
    exact Model.lt_of_owner (c := r.candidate.owner) (by rw [hi]; rfl)
  refine hs.congr (by rw [hd]; exact ⟨rfl, rfl⟩)
    ⟨(m'.prop q).implementationType, by rw [ha.prop_eq hq hqk]⟩ fun p hp => ?_
  refine ha.prop_eq (h.linked.lt_of_mem hp) ?_
  rintro rfl
  exact hwk (h.linked.owner_unique hp hk)

theorem flatMap_inPlace (h : Reshaped n m rs m') (hm : m.Linked)
    (hk : r.candidate.Fresh m rs) {l : List PropertyId} :
    (l.flatMap (slot rs)).flatMap
        (fun x => if x = r.candidate.prop then r.inPlace else [x]) =
      l.flatMap (slot (rs ++ [r])) := by
  rw [List.flatMap_assoc]
  refine List.flatMap_congr fun x _ => ?_
  by_cases hx : r.candidate.prop = x
  · subst hx
    rw [slot_of_ne hk.ne, slot_append_self hk.ne]
    simp [Record.inPlace]
  · rw [slot_append_of_ne hx]
    have hn := h.notMem_slot (hm.lt_of_mem hk.mem) (Ne.symm hx)
    have : ∀ y ∈ slot rs x, (if y = r.candidate.prop then r.inPlace else [y]) = [y] := by
      intro y hy
      rw [if_neg]
      rintro rfl
      exact hn hy
    rw [List.flatMap_congr this, List.flatMap_singleton']

theorem append (h : Reshaped n m rs m') (hm : m.Linked)
    (hk : r.candidate.Fresh m rs)
    (hl : m''.Linked) (ha : m'.AgreeBeside r.candidate m'')
    (hsize : m'.properties.size ≤ m''.properties.size)
    (hids : m''.classIds = m'.classIds ++ wrappersOf [r])
    (howner : (m''.decl r.candidate.owner).properties =
      (m'.decl r.candidate.owner).properties.flatMap
        fun x => if x = r.candidate.prop then r.inPlace else [x])
    (hsettled : r.deleted = false → ∃ w q, r.Settles n m m'' w q)
    (hdropped : r.deleted = true →
      m''.prop r.candidate.prop = { m'.prop r.candidate.prop with owner := none })
    (hreferred : ∀ q w, (m''.prop q).reference = some w → (m'.prop q).reference = some w ∨
      r.deleted = false ∧ r.wrapper = some w ∧ r.reference = some q) :
    Reshaped n m (rs ++ [r]) m'' where
  linked := hl
  mem r' hr := by
    rcases List.mem_append.mp hr with hr | hr
    · exact h.mem r' hr
    · exact List.mem_singleton.mp hr ▸ hk.mem
  size_le := Nat.le_trans h.size_le hsize
  classIds := by rw [hids, h.classIds, wrappersOf_append, List.append_assoc]
  properties c hc := by
    by_cases hco : c = r.candidate.owner
    · rw [hco, howner, h.properties _ (hco ▸ hc), h.flatMap_inPlace hm hk]
    · have hc' : c.index < m'.classes.size := by
        have : c ∈ m'.classIds := h.classIds ▸ List.mem_append_left _ (Model.mem_classIds.mpr hc)
        exact Model.mem_classIds.mp this
      rw [ha.class_eq hc' hco, h.properties c hc]
      refine List.flatMap_congr fun x hx => (slot_append_of_ne ?_).symm
      rintro rfl
      exact hco (hm.owner_unique hx hk.mem)
  settled r' hr hd := by
    rcases List.mem_append.mp hr with hr | hr
    · obtain ⟨w, q, hs⟩ := h.settled r' hr hd
      exact ⟨w, q, h.settles_of_agree (h.mem_of_fresh hm hk).1 (hm.lt_of_mem hk.mem)
        (Model.class_lt_of_mem hk.mem) ha hs⟩
    · obtain rfl := List.mem_singleton.mp hr
      exact hsettled hd
  dropped r' hr hd := by
    rcases List.mem_append.mp hr with hr | hr
    · have hlt := Nat.lt_of_lt_of_le (hm.lt_of_mem (h.mem r' hr)) h.size_le
      rw [ha.prop_eq hlt (hk.ne r' hr), h.dropped r' hr hd]
    · obtain rfl := List.mem_singleton.mp hr
      rw [hdropped hd, (h.mem_of_fresh hm hk).2]
  prop_eq p hp hn := by
    have hne := hn r (by simp)
    rw [ha.prop_eq (Nat.lt_of_lt_of_le hp h.size_le) hne.symm]
    exact h.prop_eq p hp fun r' hr => hn r' (List.mem_append_left _ hr)
  referred q w hq := by
    rcases hreferred q w hq with hq | hq
    · obtain ⟨r', hr, hs⟩ := h.referred q w hq
      exact ⟨r', List.mem_append_left _ hr, hs⟩
    · exact ⟨r, by simp, hq⟩

theorem nil (hm : m.Linked) (hn : ∀ p, (m.prop p).reference = none) : Reshaped n m [] m where
  linked := hm
  mem _ h := nomatch h
  classIds := by simp [wrappersOf]
  size_le := Nat.le_refl _
  properties c _ := by
    have hs : ∀ p ∈ (m.decl c).properties, slot [] p = [p] := fun _ _ => rfl
    rw [List.flatMap_congr hs, List.flatMap_singleton']
  settled _ h := nomatch h
  dropped _ h := nomatch h
  prop_eq _ _ _ := rfl
  referred q w h := by simp [hn] at h

theorem drop (h : Reshaped n m rs m') (hm : m.Linked)
    (hk : r.candidate.Fresh m rs) (hd : r.deleted = true) :
    Reshaped n m (rs ++ [r]) (m'.unlink r.candidate.owner r.candidate.prop) := by
  have hmem := (h.mem_of_fresh hm hk).1
  have hc := Model.class_lt_of_mem hmem
  have hp := h.linked.lt_of_mem hmem
  refine h.append hm hk (h.linked.unlink hmem) (Model.agreeBeside_unlink hmem hp) (by simp)
    ?_ ?_ (by simp [hd]) ?_ ?_
  · simp [Model.classIds, wrappersOf, hd]
  · rw [Model.decl_unlink hc, if_pos rfl, (h.linked.nodup _).erase_eq_filter,
      ← List.filterMap_eq_filter, List.filterMap_eq_flatMap_toList]
    refine List.flatMap_congr fun x _ => ?_
    by_cases hx : x = r.candidate.prop <;> simp [hx, Record.inPlace, hd, Option.guard]
  · intro _
    rw [Model.prop_unlink hp, if_pos rfl]
  · intro q w hq
    rw [Model.prop_unlink hp] at hq
    left
    split at hq
    · next e => rw [e, ← hq]
    · exact hq

theorem wrap (h : Reshaped n m rs m') (hm : m.Linked) (hn : ∀ p, (m.prop p).reference = none)
    (hk : r.candidate.Fresh m rs) (hd : r.deleted = false)
    (hrw : r.wrapper = some w) (hrq : r.reference = some q)
    (hp : r.candidate.Planned n m' plan) (hw : m'.Wraps r.candidate plan m'' w q) :
    Reshaped n m (rs ++ [r]) m'' := by
  have hkeep := (h.mem_of_fresh hm hk).2
  have hc := Model.class_lt_of_mem hk.mem
  have hsize := h.size_classes_le
  have hwo : r.candidate.owner ≠ w := by
    rintro e
    rw [e, hw.wrapper_eq] at hc
    exact absurd hc (Nat.not_lt.mpr hsize)
  have hqne : r.candidate.prop ≠ q := hw.ne_reference (by rw [hw.moved]; rfl)
  obtain ⟨i, hwdecl⟩ := hw.wrapper
  obtain ⟨j, href⟩ := hw.reference
  refine h.append hm hk hw.linked (Model.agreeBeside_of_wraps hw) ?_ ?_ ?_ ?_ (by simp [hd]) ?_
  · rw [hw.size_properties]
    omega
  · rw [hw.classIds]
    simp [wrappersOf, hd, hrw]
  · rw [hw.owner]
    dsimp only
    rw [Model.substituted, List.map_eq_flatMap]
    refine List.flatMap_congr fun x _ => ?_
    by_cases hx : x = r.candidate.prop <;> simp [hx, Record.inPlace, hd, hrq]
  · intro _
    refine ⟨w, q, hrw, hrq, ?_, ?_, by rw [hwdecl], ?_, ?_, ?_, ?_⟩
    · rw [hw.wrapper_eq]
      exact hsize
    · rw [hw.reference_eq]
      exact Nat.le_trans h.size_le (Nat.le_add_right _ _)
    · exact ⟨_, _, j, by rw [href, hkeep]⟩
    · rw [hw.moved, hp.itemField, hkeep]
    · intro hm
      rw [hwdecl]
      simp [Model.extras, hkeep, hm]
    · intro hm
      refine ⟨⟨m'.properties.size⟩, ?_, hw.textRuns _ ?_⟩
      · rw [hwdecl]
        simp [Model.extras, hkeep, hm]
      · simp [Model.extras, hkeep, hm]
  · intro x v hx
    by_cases hxk : x = r.candidate.prop
    · rw [hxk, hw.moved, hkeep] at hx
      have : (m.prop r.candidate.prop).reference = some v := hx
      simp [hn] at this
    by_cases hxe : x ∈ m'.extras r.candidate.prop
    · rw [hw.textRuns x hxe] at hx
      cases hx
    by_cases hxq : x = q
    · rw [hxq, href] at hx
      cases hx
      exact Or.inr ⟨hd, hrw, hxq ▸ hrq⟩
    · left
      rw [← hw.prop_eq hxk hxe hxq]
      exact hx

end Reshaped

/-- Any run of steps gives the model the shape of its records. -/
theorem Rewriting.reshaped (h : Rewriting n m rs m') (hm : m.Linked)
    (hn : ∀ p, (m.prop p).reference = none) : Reshaped n m rs m' := by
  induction h with
  | start => exact .nil hm hn
  | drop _ hk hd ih => exact ih.drop hm hk hd
  | wrap _ hk hd hrw hrq hp hw ih => exact ih.wrap hm hn hk hd hrw hrq hp hw

/-! ### Declarations and fields -/

/-- No old class changes but in its list. -/
theorem Rewriting.decl_eq (h : Rewriting n m rs m') (hm : m.Linked)
    (hn : ∀ p, (m.prop p).reference = none) (hc : c.index < m.classes.size) :
    ∃ ps, m'.decl c = { m.decl c with properties := ps } := by
  induction h with
  | start => exact ⟨_, rfl⟩
  | drop hrun hk hd ih =>
    obtain ⟨ps, ih⟩ := ih
    have hmem := ((hrun.reshaped hm hn).mem_of_fresh hm hk).1
    rw [Model.decl_unlink (Model.class_lt_of_mem hmem)]
    split
    · next e => exact ⟨_, by rw [← e, ih]⟩
    · exact ⟨ps, ih⟩
  | @wrap rs m' m'' r w q plan hrun hk hd hrw hrq hp hw ih =>
    obtain ⟨ps, ih⟩ := ih
    have hc' := Nat.lt_of_lt_of_le hc (hrun.reshaped hm hn).size_classes_le
    by_cases hco : c = r.candidate.owner
    · exact ⟨_, by rw [hco, hw.owner, ← hco, ih]⟩
    · exact ⟨ps, by rw [(Model.agreeBeside_of_wraps hw).class_eq hc' hco, ih]⟩

theorem Model.AgreeBeside.fields_eq (h : m.AgreeBeside k m') (hm : m.Linked)
    (hk : k.prop ∈ (m.decl k.owner).properties) (hc : c.index < m.classes.size)
    (hco : c ≠ k.owner) : m'.fields c = m.fields c := by
  rw [fields, fields, h.class_eq hc hco]
  refine List.map_congr_left fun p hp => ?_
  rw [h.prop_eq (hm.lt_of_mem hp)]
  rintro rfl
  exact hco (hm.owner_unique hp hk)

theorem Model.nodup_fields_unlink (hm : m.Linked) (hk : p ∈ (m.decl d).properties)
    (hn : (m.fields c).Nodup) : ((m.unlink d p).fields c).Nodup := by
  have hf : (fun q => ((m.unlink d p).prop q).field) = fun q => (m.prop q).field := by
    funext q
    rw [prop_unlink (hm.lt_of_mem hk)]
    split
    · next e => rw [e]
    · rfl
  rw [fields, hf, decl_unlink (class_lt_of_mem hk)]
  split
  · next e =>
    subst e
    exact hn.sublist (List.erase_sublist.map _)
  · exact hn

theorem Candidate.Planned.nodup_fields (h : k.Planned n m plan) (hw : m.Wraps k plan m' w q)
    (hm : m.Linked) (hf : (m.fields k.owner).Nodup) : (m'.fields k.owner).Nodup := by
  obtain ⟨i, hq⟩ := hw.reference
  have hprop {p} (hp : p ∈ (m.decl k.owner).properties) (hpk : p ≠ k.prop) :
      m'.prop p = m.prop p := (Model.agreeBeside_of_wraps hw).prop_eq (hm.lt_of_mem hp) hpk
  have hfield : m'.fields k.owner = (m.decl k.owner).properties.map fun p =>
      if p = k.prop then plan.referenceField else (m.prop p).field := by
    rw [Model.fields, hw.owner, Model.substituted, List.map_map]
    refine List.map_congr_left fun p hp => ?_
    dsimp only [Function.comp]
    split
    · rw [hq]
      rfl
    · next hpk => rw [hprop hp hpk]
  rw [hfield]
  refine (hm.nodup k.owner).map_on fun x hx y hy e => ?_
  split at e <;> split at e
  · next hxk hyk => rw [hxk, hyk]
  · next hyk => exact absurd e.symm (h.field_ne y hy hyk)
  · next hxk _ => exact absurd e (h.field_ne x hx hxk)
  · exact List.inj_on_of_nodup_map hf hx hy e

theorem Rewriting.nodup_fields (h : Rewriting n m rs m') (hm : m.Linked)
    (hn : ∀ p, (m.prop p).reference = none) (hc : c.index < m.classes.size)
    (hf : (m.fields c).Nodup) : (m'.fields c).Nodup := by
  induction h with
  | start => exact hf
  | drop hrun hk hd ih =>
    have hs := hrun.reshaped hm hn
    exact Model.nodup_fields_unlink hs.linked (hs.mem_of_fresh hm hk).1 ih
  | @wrap rs m' m'' r w q plan hrun hk hd hrw hrq hp hw ih =>
    have hs := hrun.reshaped hm hn
    by_cases hco : c = r.candidate.owner
    · exact hco ▸ hp.nodup_fields hw hs.linked (hco ▸ ih)
    · rwa [(Model.agreeBeside_of_wraps hw).fields_eq hs.linked (hs.mem_of_fresh hm hk).1
        (Nat.lt_of_lt_of_le hc hs.size_classes_le) hco]

/-! ### The states of a run -/

section Synthesizing

variable {s t u : PassState}

theorem Synthesizing.rewriting (h : Synthesizing n s rs t) (hm : s.model.Linked)
    (hn : ∀ p, (s.model.prop p).reference = none) : Rewriting n s.model rs t.model := by
  induction h with
  | start => exact .start
  | @step rs t u r _ hk hs ih =>
    have hshape := ih.reshaped hm hn
    have hmem := (hshape.mem_of_fresh hm hk).1
    rcases Candidate.synthesize_ok hshape.linked hmem hs with h | ⟨plan, w, q, h⟩
    · obtain ⟨w, -, hr⟩ := h.inherited
      rw [h.model]
      exact ih.drop hk (by rw [hr])
    · exact ih.wrap hk (by rw [h.record]) (by rw [h.record]) (by rw [h.record]) h.planned
        (h.wraps hshape.linked hmem)

/-- The next candidate still stands where it stood. -/
theorem Synthesizing.step_ok {r : Record} (h : Synthesizing n s rs t) (hm : s.model.Linked)
    (hn : ∀ p, (s.model.prop p).reference = none) (hk : r.candidate.Fresh s.model rs)
    (hs : (r.candidate.synthesize n).run t = .ok r u) :
    t.model.Linked ∧ r.candidate.prop ∈ (t.model.decl r.candidate.owner).properties ∧
      t.model.prop r.candidate.prop = s.model.prop r.candidate.prop ∧
        (r.candidate.Drops t r u ∨
          ∃ plan w q, Candidate.Encloses n r.candidate plan t r u w q) := by
  have hshape := (h.rewriting hm hn).reshaped hm hn
  obtain ⟨hmem, hsame⟩ := hshape.mem_of_fresh hm hk
  exact ⟨hshape.linked, hmem, hsame, Candidate.synthesize_ok hshape.linked hmem hs⟩

end Synthesizing

end Enfold
