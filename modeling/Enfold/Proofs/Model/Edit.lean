import Mathlib.Data.List.InsertIdx
import Enfold.Proofs.Model.Links

/-! # Edits keep the links

Listing a property in a class and taking it out again change the list and the owner together. Each
edit is given in closed form where it succeeds, with the class and the property that it changes.
-/

namespace Enfold.Model

variable {m : Model} {c d : ClassId} {p q : PropertyId}

theorem modifyClass_congr {f g : ClassDecl → ClassDecl} (h : f (m.decl c) = g (m.decl c)) :
    m.modifyClass c f = m.modifyClass c g := by
  have : m.classes.modify c.index f = m.classes.modify c.index g := by
    apply Array.ext
    · simp
    · intro i hi hj
      have hs : i < m.classes.size := by simpa using hi
      rw [Array.getElem_modify, Array.getElem_modify]
      split
      · next e => subst e; simpa [decl, hs] using h
      · rfl
  simp only [modifyClass, this]

/-! ### Listing a property -/

/-- Makes a class the owner of a property and lists it in a new list. -/
def link (m : Model) (c : ClassId) (p : PropertyId) (ps : List PropertyId) : Model :=
  (m.modifyProperty p fun q => { q with owner := some c }).modifyClass c fun d =>
    { d with properties := ps }

theorem attachProperty_eq_link (m : Model) (c : ClassId) (p : PropertyId) :
    m.attachProperty c p = m.link c p ((m.decl c).properties ++ [p]) :=
  modifyClass_congr rfl

theorem insertProperty_eq_link (m : Model) (c : ClassId) (i : Int) (p : PropertyId) :
    m.insertProperty c i p = m.link c p ((m.decl c).properties.insertIdx
      (placeFor (m.decl c).properties.length i) p) :=
  modifyClass_congr rfl

theorem placeFor_le (n : Nat) (i : Int) : placeFor n i ≤ n := by
  unfold placeFor
  split <;> omega

@[simp] theorem size_link (ps : List PropertyId) :
    (m.link c p ps).classes.size = m.classes.size := by
  simp [link]

@[simp] theorem size_properties_link (ps : List PropertyId) :
    (m.link c p ps).properties.size = m.properties.size := by
  simp [link]

theorem decl_link (hc : c.index < m.classes.size) (ps : List PropertyId) :
    (m.link c p ps).decl d =
      if d = c then { m.decl c with properties := ps } else m.decl d := by
  unfold link
  rw [decl_modifyClass (by simpa using hc)]
  simp

theorem prop_link (hp : p.index < m.properties.size) (ps : List PropertyId) :
    (m.link c p ps).prop q = if q = p then { m.prop p with owner := some c } else m.prop q := by
  unfold link
  rw [prop_modifyClass, prop_modifyProperty hp]

theorem Linked.link (hm : m.Linked) (hc : c.index < m.classes.size)
    (hp : p.index < m.properties.size) (ho : (m.prop p).owner = none) {ps : List PropertyId}
    (h : ps.Perm (p :: (m.decl c).properties)) : (m.link c p ps).Linked := by
  have hn (e : ClassId) : p ∉ (m.decl e).properties := by simp [hm.mem_iff_owner, ho]
  refine hm.of_nested (fun d => ?_) (fun d q => ?_) fun d => ?_
  · rw [decl_link hc]
    split
    · next e => simp [e]
    · simp
  · rw [decl_link hc, prop_link hp]
    by_cases hd : d = c <;> by_cases hq : q = p
    · simp [hd, hq, h.mem_iff]
    · simp [hd, hq, h.mem_iff, hm.mem_iff_owner]
    · simp [hd, hq, hn, Ne.symm hd]
    · simp [hd, hq, hm.mem_iff_owner]
  · rw [decl_link hc]
    split
    · exact h.nodup_iff.mpr (List.nodup_cons.mpr ⟨hn c, hm.nodup c⟩)
    · exact hm.nodup d

theorem Linked.attachProperty (hm : m.Linked) (hc : c.index < m.classes.size)
    (hp : p.index < m.properties.size) (ho : (m.prop p).owner = none) :
    (m.attachProperty c p).Linked := by
  rw [attachProperty_eq_link]
  exact hm.link hc hp ho (List.perm_append_singleton p _)

theorem Linked.insertProperty (hm : m.Linked) (hc : c.index < m.classes.size)
    (hp : p.index < m.properties.size) (ho : (m.prop p).owner = none) (i : Int) :
    (m.insertProperty c i p).Linked := by
  rw [insertProperty_eq_link]
  exact hm.link hc hp ho (List.perm_insertIdx p _ (placeFor_le _ i))

/-! ### Adding a property -/

section Adding

variable {x : Property}

theorem addProperty_eq (m : Model) (c : ClassId) (x : Property) :
    m.addProperty c x = (m.newProperty x).1.attachProperty c ⟨m.properties.size⟩ := rfl

@[simp] theorem size_addProperty :
    (m.addProperty c x).classes.size = m.classes.size := by
  simp [addProperty_eq, attachProperty_eq_link]

@[simp] theorem size_properties_addProperty :
    (m.addProperty c x).properties.size = m.properties.size + 1 := by
  simp [addProperty_eq, attachProperty_eq_link]

theorem decl_addProperty (hc : c.index < m.classes.size) : (m.addProperty c x).decl d =
    if d = c then { m.decl c with properties := (m.decl c).properties ++ [⟨m.properties.size⟩] }
    else m.decl d := by
  rw [addProperty_eq, attachProperty_eq_link, decl_link (by simpa using hc)]
  simp

theorem prop_addProperty : (m.addProperty c x).prop p =
    if p = ⟨m.properties.size⟩ then { x with owner := some c } else m.prop p := by
  rw [addProperty_eq, attachProperty_eq_link, prop_link (by simp)]
  split
  · rw [prop_newProperty_self]
  · next hp => rw [prop_newProperty_of_ne x fun e => hp (PropertyId.eq_mk e)]

theorem Linked.addProperty (hm : m.Linked) (hc : c.index < m.classes.size)
    (hx : x.owner = none) : (m.addProperty c x).Linked := by
  refine (hm.newProperty hx).attachProperty (by simpa using hc) (by simp) ?_
  rw [prop_newProperty_self, hx]

end Adding

/-! ### Taking a property out -/

def unlink (m : Model) (c : ClassId) (p : PropertyId) : Model :=
  (m.modifyClass c fun d => { d with properties := d.properties.erase p }).modifyProperty p
    fun q => { q with owner := none }

theorem removeProperty_of_mem (h : p ∈ (m.decl c).properties) :
    m.removeProperty c p = .ok (m.unlink c p, (m.decl c).properties.idxOf p) := by
  have hi : (m.decl c).properties.idxOf? p = some ((m.decl c).properties.idxOf p) := by
    obtain ⟨i, hi⟩ := Option.isSome_iff_exists.mp (List.isSome_idxOf?.mpr h)
    rw [List.idxOf_eq_getD_idxOf?, hi, Option.getD_some]
  have he : m.modifyClass c (fun d => { d with
      properties := d.properties.eraseIdx ((m.decl c).properties.idxOf p) }) =
      m.modifyClass c fun d => { d with properties := d.properties.erase p } :=
    modifyClass_congr (by rw [List.erase_eq_eraseIdx_of_idxOf rfl])
  simp [removeProperty, indexOf, hi, he, unlink, bind, Except.bind, pure, Except.pure]

theorem removeProperty_of_notMem (h : p ∉ (m.decl c).properties) :
    m.removeProperty c p = .error (.notOwned (m.prop p).name (m.qualifiedName c)) := by
  have hi : (m.decl c).properties.idxOf? p = none := List.idxOf?_eq_none_iff.mpr h
  simp [removeProperty, indexOf, hi, bind, Except.bind]

theorem deleteProperty_of_mem (hm : m.Linked) (h : p ∈ (m.decl c).properties) :
    m.deleteProperty p = .ok (m.unlink c p, (m.decl c).properties.idxOf p) := by
  unfold deleteProperty
  rw [hm.mem_iff_owner.mp h]
  exact removeProperty_of_mem h

@[simp] theorem size_unlink : (m.unlink c p).classes.size = m.classes.size := by simp [unlink]

@[simp] theorem size_properties_unlink :
    (m.unlink c p).properties.size = m.properties.size := by
  simp [unlink]

theorem decl_unlink (hc : c.index < m.classes.size) : (m.unlink c p).decl d =
    if d = c then { m.decl c with properties := (m.decl c).properties.erase p } else m.decl d := by
  unfold unlink
  rw [decl_modifyProperty, decl_modifyClass hc]

/-- No class changes but in its list. -/
theorem exists_decl_unlink (hp : p ∈ (m.decl c).properties) (d : ClassId) :
    ∃ ps, (m.unlink c p).decl d = { m.decl d with properties := ps } := by
  rw [decl_unlink (class_lt_of_mem hp)]
  split
  · next e => exact ⟨_, by rw [e]⟩
  · exact ⟨_, rfl⟩

theorem prop_unlink (hp : p.index < m.properties.size) : (m.unlink c p).prop q =
    if q = p then { m.prop p with owner := none } else m.prop q := by
  unfold unlink
  rw [prop_modifyProperty (by simpa using hp)]
  simp

theorem Linked.unlink (hm : m.Linked) (h : p ∈ (m.decl c).properties) :
    (m.unlink c p).Linked := by
  have hc := class_lt_of_mem h
  refine hm.of_nested (fun d => ?_) (fun d q => ?_) fun d => ?_
  · rw [decl_unlink hc]
    split
    · next e => simp [e]
    · simp
  · rw [decl_unlink hc, prop_unlink (hm.lt_of_mem h)]
    by_cases hd : d = c <;> by_cases hq : q = p
    · simp [hd, hq, (hm.nodup c).mem_erase_iff]
    · simp [hd, hq, List.mem_erase_of_ne hq, hm.mem_iff_owner]
    · simp only [hd, hq, if_false, if_true, reduceCtorEq, iff_false]
      exact fun hp => hd (hm.owner_unique hp h)
    · simp [hd, hq, hm.mem_iff_owner]
  · rw [decl_unlink hc]
    split
    · exact (hm.nodup c).erase p
    · exact hm.nodup d

end Enfold.Model
