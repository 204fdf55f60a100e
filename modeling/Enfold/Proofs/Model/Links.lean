import Mathlib.Data.List.Nodup
import Enfold.Model.Build

/-! # Links of a model

The list of a class and the owners of its properties say the same, a class comes after the one it
is nested in, and both are in one package. Every edit of a model keeps these links.
-/

namespace Enfold

theorem ClassId.eq_mk {c : ClassId} {i : Nat} (h : c.index = i) : c = ⟨i⟩ := congrArg mk h

theorem PropertyId.eq_mk {p : PropertyId} {i : Nat} (h : p.index = i) : p = ⟨i⟩ := congrArg mk h

namespace Model

/-- The links between classes and properties fit together. -/
structure Linked (m : Model) : Prop where
  mem_iff_owner : ∀ {c p}, p ∈ (m.decl c).properties ↔ (m.prop p).owner = some c
  nodup : ∀ c, (m.decl c).properties.Nodup
  parent_lt : ∀ {c d}, (m.decl d).parent = some c → c.index < d.index
  package_eq : ∀ {c d}, (m.decl d).parent = some c → (m.decl d).package = (m.decl c).package

variable {m m' : Model} {c d : ClassId} {p q : PropertyId}

theorem decl_of_size_le (h : m.classes.size ≤ c.index) : m.decl c = default := by
  simp [decl, h]

theorem prop_of_size_le (h : m.properties.size ≤ p.index) : m.prop p = default := by
  simp [prop, h]

theorem lt_of_parent (h : (m.decl d).parent = some c) : d.index < m.classes.size := by
  by_contra hn
  rw [decl_of_size_le (Nat.le_of_not_lt hn)] at h
  cases h

theorem lt_of_owner (h : (m.prop p).owner = some c) : p.index < m.properties.size := by
  by_contra hn
  rw [prop_of_size_le (Nat.le_of_not_lt hn)] at h
  cases h

theorem class_lt_of_mem (h : p ∈ (m.decl c).properties) : c.index < m.classes.size := by
  by_contra hn
  rw [decl_of_size_le (Nat.le_of_not_lt hn)] at h
  cases h

/-! ### What an edit does to each class and each property -/

section Views

theorem decl_modifyClass (h : c.index < m.classes.size) (f : ClassDecl → ClassDecl) :
    (m.modifyClass c f).decl d = if d = c then f (m.decl c) else m.decl d := by
  split
  · next e => rw [e, decl_modifyClass_self h]
  · next e => rw [decl_modifyClass_of_ne e]

theorem prop_modifyProperty (h : p.index < m.properties.size) (f : Property → Property) :
    (m.modifyProperty p f).prop q = if q = p then f (m.prop p) else m.prop q := by
  split
  · next e => rw [e, prop_modifyProperty_self h]
  · next e => rw [prop_modifyProperty_of_ne e]

@[simp] theorem size_modifyClass (f : ClassDecl → ClassDecl) :
    (m.modifyClass c f).classes.size = m.classes.size := by
  simp [modifyClass]

theorem decl_modifyClass_or (f : ClassDecl → ClassDecl) (d : ClassId) :
    (m.modifyClass c f).decl d = m.decl d ∨ (m.modifyClass c f).decl d = f (m.decl d) := by
  by_cases h : c.index < m.classes.size
  · rw [decl_modifyClass h]
    split
    · next e => exact Or.inr (by rw [e])
    · exact Or.inl rfl
  · left
    by_cases hd : d = c
    · have hs := Nat.le_of_not_lt (hd ▸ h)
      rw [decl_of_size_le hs, decl_of_size_le (by rwa [size_modifyClass])]
    · exact decl_modifyClass_of_ne hd m f

@[simp] theorem size_modifyProperty (f : Property → Property) :
    (m.modifyProperty p f).properties.size = m.properties.size := by
  simp [modifyProperty]

theorem prop_modifyProperty_or (f : Property → Property) (q : PropertyId) :
    (m.modifyProperty p f).prop q = m.prop q ∨
      q = p ∧ (m.modifyProperty p f).prop q = f (m.prop q) := by
  by_cases hp : p.index < m.properties.size
  · rw [prop_modifyProperty hp]
    split
    · next e => exact Or.inr ⟨e, by rw [e]⟩
    · exact Or.inl rfl
  · left
    by_cases hq : q = p
    · have hs := Nat.le_of_not_lt (hq ▸ hp)
      rw [prop_of_size_le hs, prop_of_size_le (by rwa [size_modifyProperty])]
    · exact prop_modifyProperty_of_ne hq m f

theorem decl_addClass_self (e : ClassDecl) (parent : Option ClassId) :
    (m.addClass e parent).1.decl ⟨m.classes.size⟩ = match parent with
      | some p => { e with parent := some p, package := (m.decl p).package }
      | none => { e with parent := none } := by
  cases parent <;> simp [addClass, decl]

theorem decl_addClass_of_ne (e : ClassDecl) (parent : Option ClassId)
    (h : c.index ≠ m.classes.size) : (m.addClass e parent).1.decl c = m.decl c := by
  simp [addClass, decl, Array.getElem?_push, h]

@[simp] theorem prop_addClass (e : ClassDecl) (parent : Option ClassId) :
    (m.addClass e parent).1.prop p = m.prop p := rfl

@[simp] theorem size_addClass (e : ClassDecl) (parent : Option ClassId) :
    (m.addClass e parent).1.classes.size = m.classes.size + 1 := by
  simp [addClass]

@[simp] theorem properties_addClass (e : ClassDecl) (parent : Option ClassId) :
    (m.addClass e parent).1.properties = m.properties := rfl

@[simp] theorem snd_addClass (e : ClassDecl) (parent : Option ClassId) :
    (m.addClass e parent).2 = ⟨m.classes.size⟩ := rfl

@[simp] theorem decl_newProperty (x : Property) : (m.newProperty x).1.decl c = m.decl c := rfl

@[simp] theorem classes_newProperty (x : Property) : (m.newProperty x).1.classes = m.classes := rfl

@[simp] theorem snd_newProperty (x : Property) : (m.newProperty x).2 = ⟨m.properties.size⟩ := rfl

@[simp] theorem size_newProperty (x : Property) :
    (m.newProperty x).1.properties.size = m.properties.size + 1 := by
  simp [newProperty]

theorem prop_newProperty_self (x : Property) :
    (m.newProperty x).1.prop ⟨m.properties.size⟩ = x := by
  simp [newProperty, prop]

theorem prop_newProperty_of_ne (x : Property) (h : p.index ≠ m.properties.size) :
    (m.newProperty x).1.prop p = m.prop p := by
  simp [newProperty, prop, Array.getElem?_push, h]

end Views

namespace Linked

theorem lt_of_mem (hm : m.Linked) (h : p ∈ (m.decl c).properties) :
    p.index < m.properties.size :=
  lt_of_owner (hm.mem_iff_owner.mp h)

theorem owner_lt (hm : m.Linked) (h : (m.prop p).owner = some c) : c.index < m.classes.size :=
  class_lt_of_mem (hm.mem_iff_owner.mpr h)

/-- A property stands in the list of one class at most. -/
theorem owner_unique (hm : m.Linked) (hc : p ∈ (m.decl c).properties)
    (hd : p ∈ (m.decl d).properties) : c = d :=
  Option.some.inj ((hm.mem_iff_owner.mp hc).symm.trans (hm.mem_iff_owner.mp hd))

theorem parent_lt_size (hm : m.Linked) (h : (m.decl d).parent = some c) :
    c.index < m.classes.size :=
  Nat.lt_trans (hm.parent_lt h) (lt_of_parent h)

/-- An edit has to keep lists and owners in step. -/
theorem of_nested (hm : m.Linked)
    (hd : ∀ c, (m'.decl c).parent = (m.decl c).parent ∧ (m'.decl c).package = (m.decl c).package)
    (mem : ∀ c p, p ∈ (m'.decl c).properties ↔ (m'.prop p).owner = some c)
    (nodup : ∀ c, (m'.decl c).properties.Nodup) : m'.Linked where
  mem_iff_owner := mem _ _
  nodup := nodup
  parent_lt {c d} h := by rw [(hd d).1] at h; exact hm.parent_lt h
  package_eq {c d} h := by
    rw [(hd d).1] at h
    rw [(hd d).2, (hd c).2, hm.package_eq h]

/-- Only lists, parents, packages and owners matter for the links. -/
theorem congr (hm : m.Linked)
    (hd : ∀ c, (m'.decl c).parent = (m.decl c).parent ∧ (m'.decl c).package = (m.decl c).package)
    (hl : ∀ c, (m'.decl c).properties = (m.decl c).properties)
    (hp : ∀ p, (m'.prop p).owner = (m.prop p).owner) : m'.Linked :=
  hm.of_nested hd (fun c p => by rw [hl, hp, hm.mem_iff_owner])
    fun c => by rw [hl]; exact hm.nodup c

theorem modifyClass (hm : m.Linked) {f : ClassDecl → ClassDecl} (hf : ∀ e, (f e).parent = e.parent ∧
    (f e).package = e.package ∧ (f e).properties = e.properties) :
    (m.modifyClass c f).Linked := by
  apply hm.congr
  · intro d
    rcases m.decl_modifyClass_or (c := c) f d with h | h <;> simp [h, hf]
  · intro d
    rcases m.decl_modifyClass_or (c := c) f d with h | h <;> simp [h, hf]
  · simp

theorem modifyProperty (hm : m.Linked) {f : Property → Property}
    (hf : ∀ x, (f x).owner = x.owner) : (m.modifyProperty p f).Linked := by
  apply hm.congr
  · simp
  · simp
  · intro q
    rcases prop_modifyProperty_or (m := m) (p := p) f q with h | ⟨-, h⟩ <;> simp [h, hf]

theorem modifyFactory (hm : m.Linked) (package : Option String) (f : Factory → Factory) :
    (m.modifyFactory package f).Linked :=
  hm.congr (fun _ => ⟨rfl, rfl⟩) (fun _ => rfl) fun _ => rfl

theorem addClass (hm : m.Linked) {e : ClassDecl} (he : e.properties = []) {parent : Option ClassId}
    (hp : ∀ c, parent = some c → c.index < m.classes.size) : (m.addClass e parent).1.Linked := by
  have old {c : ClassId} (h : c.index ≠ m.classes.size) :
      (m.addClass e parent).1.decl c = m.decl c := decl_addClass_of_ne e parent h
  have new : (m.addClass e parent).1.decl ⟨m.classes.size⟩ = _ := decl_addClass_self e parent
  have hnone : ((m.addClass e parent).1.decl ⟨m.classes.size⟩).properties = [] := by
    rw [new]
    cases parent <;> exact he
  have hno (p) : (m.prop p).owner ≠ some ⟨m.classes.size⟩ := fun h =>
    absurd (hm.owner_lt h) (Nat.lt_irrefl _)
  refine ⟨fun {c p} => ?_, fun c => ?_, fun {c d} h => ?_, fun {c d} h => ?_⟩
  · rw [prop_addClass]
    by_cases hc : c.index = m.classes.size
    · obtain rfl := ClassId.eq_mk hc
      simp [hnone, hno]
    · rw [old hc, hm.mem_iff_owner]
  · by_cases hc : c.index = m.classes.size
    · obtain rfl := ClassId.eq_mk hc
      simp [hnone]
    · rw [old hc]; exact hm.nodup c
  · by_cases hd : d.index = m.classes.size
    · obtain rfl := ClassId.eq_mk hd
      rw [new] at h
      cases parent with
      | none => cases h
      | some b => cases h; exact hp _ rfl
    · rw [old hd] at h; exact hm.parent_lt h
  · by_cases hd : d.index = m.classes.size
    · obtain rfl := ClassId.eq_mk hd
      rw [new] at h
      cases parent with
      | none => cases h
      | some b => cases h; rw [new, old (Nat.ne_of_lt (hp _ rfl))]
    · rw [old hd] at h ⊢
      rw [old (Nat.ne_of_lt (hm.parent_lt_size h)), hm.package_eq h]

theorem newProperty (hm : m.Linked) {x : Property} (hx : x.owner = none) :
    (m.newProperty x).1.Linked := by
  refine hm.congr (fun c => by simp) (fun c => by simp) fun p => ?_
  by_cases hp : p.index = m.properties.size
  · obtain rfl := PropertyId.eq_mk hp
    rw [prop_newProperty_self, prop_of_size_le (p := ⟨m.properties.size⟩) (Nat.le_refl _), hx]
    rfl
  · rw [prop_newProperty_of_ne x hp]

end Linked

theorem linked_empty (e : Option Episode) : ({ episode := e } : Model).Linked where
  mem_iff_owner {c p} := by
    rw [decl_of_size_le (Nat.zero_le _), prop_of_size_le (Nat.zero_le _)]
    simp [show (default : ClassDecl).properties = [] from rfl,
      show (default : Property).owner = none from rfl]
  nodup c := by rw [decl_of_size_le (Nat.zero_le _)]; exact List.nodup_nil
  parent_lt {c d} h := by rw [decl_of_size_le (Nat.zero_le _)] at h; cases h
  package_eq {c d} h := by rw [decl_of_size_le (Nat.zero_le _)] at h; cases h

end Model
end Enfold
