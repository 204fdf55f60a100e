import Enfold.Binding.Write
import Enfold.Proofs.Binding.Container

/-! # How data are written

A datum is written by its parts, so what is written for one property depends on the value of its
field alone.
-/

namespace Enfold.Binding

variable {m m' : Model} {d d' : Datum} {x x' : Property} {q : PropertyId} {w : ClassId}
  {fs : Fields} {xs xs' : List Datum} {parent : Xml.Element}

theorem writer_datum (d : Datum) : (writer m d).datum = d := by
  cases d <;> rfl

theorem itemWriters_eq_map (xs : List Datum) : itemWriters m xs = xs.map (writer m) := by
  induction xs with
  | nil => rfl
  | cons d xs ih => rw [itemWriters, ih, List.map_cons]

theorem get?_fieldWriters (k : String) (fs : Fields) :
    Assoc.get? k (fieldWriters m fs) = (Assoc.get? k fs).map (writer m) := by
  induction fs with
  | nil => rfl
  | cons e fs ih =>
    obtain ⟨k', d⟩ := e
    rw [fieldWriters, Assoc.get?, Assoc.get?, ih]
    split <;> rfl

def valueWriters (m : Model) (xs : List Datum) : List ValueWriter :=
  xs.map fun d => (writer m d).value

theorem items_container (k : ContainerKind) (xs : List Datum) :
    (writer m (.container k xs)).items = .ok (valueWriters m xs) := by
  simp [writer, Writer.ofContainer, itemWriters_eq_map, valueWriters]

/-! ### What a property writes -/

theorem writeProperty_of_absent (h : Assoc.get? (m.prop q).field fs = none) :
    writeProperty m (fieldWriters m fs) parent q = .ok parent := by
  unfold writeProperty
  dsimp only
  rw [get?_fieldWriters, h]
  rfl

theorem writeProperty_of_present (h : Assoc.get? (m.prop q).field fs = some d)
    (hn : d.isNull = false) : writeProperty m (fieldWriters m fs) parent q =
      if (m.prop q).isAttribute then
        (attributeText m d).map fun s => { parent with
          attributes := Assoc.put (m.prop q).name s parent.attributes }
      else if (m.prop q).reference.isSome then (writer m d).inline parent
      else if (m.prop q).kind = .mixed then writeMixed (fieldWriters m fs) (m.prop q) parent
      else if (m.prop q).multiplicity = .repeated then
        (writer m d).items >>= writeItems (m.prop q) parent
      else ((writer m d).value (m.prop q)).map (addChild parent) := by
  unfold writeProperty
  dsimp only
  rw [get?_fieldWriters, h]
  simp only [Option.map_some, writer_datum, hn, Bool.false_eq_true, if_false]
  congr 1

theorem writeProperty_of_attribute {s : String} (ha : (m.prop q).isAttribute = true)
    (h : Assoc.get? (m.prop q).field fs = some (.text s)) :
    writeProperty m (fieldWriters m fs) parent q = .ok { parent with
      attributes := Assoc.put (m.prop q).name s parent.attributes } := by
  rw [writeProperty_of_present h rfl, if_pos ha]
  rfl

theorem writeProperty_of_reference {values : Fields} (ha : (m.prop q).isAttribute = false)
    (hr : (m.prop q).reference.isSome = true)
    (h : Assoc.get? (m.prop q).field fs = some (.object w values)) :
    writeProperty m (fieldWriters m fs) parent q =
      (m.decl w).properties.foldlM (writeWrappedProperty m (fieldWriters m values)) parent := by
  rw [writeProperty_of_present h rfl, ha, hr]
  rfl

/-- What an element property without a wrapper needs to be. -/
structure Plain (x : Property) : Prop where
  isAttribute : x.isAttribute = false
  reference : x.reference = none
  kind : x.kind ≠ .mixed

theorem Plain.writeProperty (hq : Plain (m.prop q))
    (h : Assoc.get? (m.prop q).field fs = some d) (hn : d.isNull = false) :
    writeProperty m (fieldWriters m fs) parent q =
      if (m.prop q).multiplicity = .repeated then
        (writer m d).items >>= writeItems (m.prop q) parent
      else ((writer m d).value (m.prop q)).map (addChild parent) := by
  rw [writeProperty_of_present h hn, hq.isAttribute, hq.reference, if_neg hq.kind]
  rfl

theorem writeProperty_of_repeated (hq : Plain (m.prop q))
    (hr : (m.prop q).multiplicity = .repeated) (h : Instance.Has (m.prop q).field fs xs) :
    writeProperty m (fieldWriters m fs) parent q =
      writeItems (m.prop q) parent (valueWriters m xs) := by
  rcases h with ⟨k, hk⟩ | ⟨hk, rfl⟩
  · rw [hq.writeProperty hk rfl, if_pos hr, items_container]
    rfl
  · exact writeProperty_of_absent hk

theorem itemsOf_has {field : String} (h : Instance.Has field fs xs) :
    itemsOf (fieldWriters m fs) field = .ok (valueWriters m xs) := by
  unfold itemsOf
  rw [get?_fieldWriters]
  rcases h with ⟨k, hk⟩ | ⟨hk, rfl⟩
  · rw [hk]
    cases xs with
    | nil => rfl
    | cons d xs => simp [writer_datum, Datum.isTruthy, items_container]
  · rw [hk]
    rfl

/-- A wrapper with one property writes its items into the element of its owner. -/
theorem writeProperty_of_wrapper {p : PropertyId} {values : Fields}
    (ha : (m.prop q).isAttribute = false) (hr : (m.prop q).reference = some w)
    (hw : (m.decl w).properties = [p]) (hs : (m.prop p).synthetic = false)
    (hk : (m.prop p).kind ≠ .mixed)
    (h : Assoc.get? (m.prop q).field fs = some (.object w values))
    (hv : Instance.Holds (m.prop p) values xs) :
    writeProperty m (fieldWriters m fs) parent q =
      writeItems (m.prop p) parent (valueWriters m xs) := by
  have hwrite : writeWrappedProperty m (fieldWriters m values) parent p =
      writeItems (m.prop p) parent (valueWriters m xs) := by
    unfold writeWrappedProperty
    dsimp only
    rw [hs, if_neg hk, itemsOf_has hv.has]
    rfl
  rw [writeProperty_of_reference ha (by rw [hr]; rfl) h, hw, List.foldlM_cons, hwrite]
  cases writeItems (m.prop p) parent (valueWriters m xs) <;> rfl

/-! ### Data that are written alike -/

/-- Two data of two models that are written alike for properties of the same name. -/
structure WrittenAlike (m m' : Model) (d d' : Datum) : Prop where
  ne_null : d.isNull = false ∧ d'.isNull = false
  value : ∀ x x' : Property, x'.name = x.name → ∃ e,
    (writer m d).value x = .ok e ∧ (writer m' d').value x' = .ok e

theorem writtenAlike_text (s : String) : WrittenAlike m m' (.text s) (.text s) where
  ne_null := ⟨rfl, rfl⟩
  value x x' h := by
    refine ⟨_, rfl, ?_⟩
    simp [writer, Datum.text, Writer.ofScalar, Writer.plain, h, Datum.plain]

theorem writtenAlike_element (e : Xml.Element) : WrittenAlike m m' (.element e) (.element e) where
  ne_null := ⟨rfl, rfl⟩
  value _ _ _ := ⟨_, rfl, rfl⟩

theorem writeItems_alike (h : List.Forall₂ (WrittenAlike m m') xs xs') (hx : x'.name = x.name)
    (parent : Xml.Element) : ∃ e, writeItems x parent (valueWriters m xs) = .ok e ∧
      writeItems x' parent (valueWriters m' xs') = .ok e := by
  refine foldlM_eq_ok_of_forall₂ ?_ parent
  rw [valueWriters, valueWriters, List.forall₂_map_left_iff, List.forall₂_map_right_iff]
  refine h.imp fun d d' hd acc => ?_
  obtain ⟨e, he, he'⟩ := hd.value x x' hx
  exact ⟨addChild acc e, by rw [he]; rfl, by rw [he']; rfl⟩

end Enfold.Binding
