import Enfold.Proofs.Model.Edit

/-! # Moving a property

A property that a class owns can be moved to any class, its own among them. It leaves the list of
its owner, where the others keep their order, and comes last in the list of the other class.
-/

namespace Enfold.Model

variable {m : Model} {c d w : ClassId} {p q : PropertyId}

theorem modifyProperty_congr {f g : Property → Property} (h : f (m.prop p) = g (m.prop p)) :
    m.modifyProperty p f = m.modifyProperty p g := by
  have : m.properties.modify p.index f = m.properties.modify p.index g := by
    apply Array.ext
    · simp
    · intro i hi hj
      have hs : i < m.properties.size := by simpa using hi
      rw [Array.getElem_modify, Array.getElem_modify]
      split
      · next e => subst e; simpa [prop, hs] using h
      · rfl
  simp only [modifyProperty, this]

theorem modifyProperty_eq_self {f : Property → Property} (h : f (m.prop p) = m.prop p) :
    m.modifyProperty p f = m := by
  rw [modifyProperty_congr (g := id) h]
  have : m.properties.modify p.index id = m.properties := by
    apply Array.ext <;> simp [Array.getElem_modify]
  rw [modifyProperty, this]

/-- Moves a property to the end of another class, under a new field unless that is empty. -/
def shift (m : Model) (c : ClassId) (p : PropertyId) (w : ClassId) (field : String) : Model :=
  ((m.unlink c p).modifyProperty p fun q =>
    { q with field := if field = "" then q.field else field }).attachProperty w p

theorem moveProperty_of_mem (hm : m.Linked) (h : p ∈ (m.decl c).properties) (field : String) :
    m.moveProperty p w (some field) =
      .ok (m.shift c p w field, (m.decl c).properties.idxOf p) := by
  unfold moveProperty
  rw [hm.mem_iff_owner.mp h]
  dsimp only
  rw [removeProperty_of_mem h]
  by_cases hf : field = ""
  · have hs : (m.unlink c p).modifyProperty p (fun q => { q with field := q.field }) =
        m.unlink c p := modifyProperty_eq_self rfl
    have hn : (some field).filter (· ≠ "") = none := by simp [Option.filter_some, hf]
    rw [hn]
    simp [shift, hf, hs, bind, Except.bind, pure, Except.pure]
  · have hn : (some field).filter (· ≠ "") = some field := by simp [Option.filter_some, hf]
    rw [hn]
    simp [shift, hf, bind, Except.bind, pure, Except.pure]

theorem moveProperty_none (m : Model) (p : PropertyId) (w : ClassId) :
    m.moveProperty p w none = m.moveProperty p w (some "") := by
  simp [moveProperty, Option.filter_some]

theorem moveProperty_of_owner (hm : m.Linked) (ho : (m.prop p).owner = some c) (w : ClassId)
    (field : Option String) : m.moveProperty p w field =
      .ok (m.shift c p w (field.getD ""), (m.decl c).properties.idxOf p) := by
  have h := hm.mem_iff_owner.mpr ho
  cases field with
  | none => rw [moveProperty_none, moveProperty_of_mem hm h, Option.getD_none]
  | some field => rw [moveProperty_of_mem hm h, Option.getD_some]

theorem moveProperty_of_unowned (ho : (m.prop p).owner = none) (w : ClassId)
    (field : Option String) :
    m.moveProperty p w field = .error (.nowhereToMoveFrom (m.prop p).name) := by
  simp [moveProperty, ho]

@[simp] theorem size_shift (field : String) :
    (m.shift c p w field).classes.size = m.classes.size := by
  simp [shift, attachProperty_eq_link]

@[simp] theorem size_properties_shift (field : String) :
    (m.shift c p w field).properties.size = m.properties.size := by
  simp [shift, attachProperty_eq_link]

theorem decl_shift (hc : c.index < m.classes.size) (hw : w.index < m.classes.size) (hwc : w ≠ c)
    (field : String) : (m.shift c p w field).decl d =
      if d = w then { m.decl w with properties := (m.decl w).properties ++ [p] }
      else if d = c then { m.decl c with properties := (m.decl c).properties.erase p }
      else m.decl d := by
  unfold shift
  rw [attachProperty_eq_link, decl_link (by simpa using hw)]
  simp only [decl_modifyProperty, decl_unlink hc, if_neg hwc]

theorem properties_unlink (hm : m.Linked) (h : p ∈ (m.decl c).properties) (d : ClassId) :
    ((m.unlink c p).decl d).properties = (m.decl d).properties.erase p := by
  rw [decl_unlink (class_lt_of_mem h)]
  split
  · next e => rw [e]
  · next e => rw [List.erase_of_not_mem fun hp => e (hm.owner_unique hp h)]

/-- The property comes last, also if both classes are one. -/
theorem properties_shift (hm : m.Linked) (h : p ∈ (m.decl c).properties)
    (hw : w.index < m.classes.size) (field : String) (d : ClassId) :
    ((m.shift c p w field).decl d).properties =
      (m.decl d).properties.erase p ++ if d = w then [p] else [] := by
  unfold shift
  rw [attachProperty_eq_link, decl_link (by simpa using hw)]
  by_cases hd : d = w
  · simp [hd, properties_unlink hm h]
  · simp [hd, properties_unlink hm h]

theorem prop_shift (hp : p.index < m.properties.size) (field : String) :
    (m.shift c p w field).prop q = if q = p then
        { m.prop p with field := if field = "" then (m.prop p).field else field, owner := some w }
      else m.prop q := by
  unfold shift
  rw [attachProperty_eq_link, prop_link (by simpa using hp)]
  simp only [prop_modifyProperty (show p.index < (m.unlink c p).properties.size by simpa using hp),
    prop_unlink hp]
  split <;> simp

theorem Linked.shift (hm : m.Linked) (h : p ∈ (m.decl c).properties)
    (hw : w.index < m.classes.size) (field : String) : (m.shift c p w field).Linked := by
  have hp := hm.lt_of_mem h
  have hl : ((m.unlink c p).modifyProperty p fun q =>
      { q with field := if field = "" then q.field else field }).Linked :=
    (hm.unlink h).modifyProperty fun _ => rfl
  apply hl.attachProperty
  · simpa using hw
  · simpa using hp
  · rw [prop_modifyProperty (by simpa using hp), if_pos rfl, prop_unlink hp, if_pos rfl]

end Enfold.Model
