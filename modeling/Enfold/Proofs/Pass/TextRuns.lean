import Enfold.Proofs.Naming.Words
import Enfold.Proofs.Pass.Paths

/-! # Items and the text around them

A wrapper of mixed content has two properties, the items and the runs of text between them. The
items have a field of their own choice, and the text has one that is fixed and is not compared with
it. So the two come to share a field exactly if the items are to be kept in that one, which the name
of an element decides by its words.
-/

namespace Enfold

variable {n : Naming} {m m' : Model} {r : Record} {w : ClassId} {q : PropertyId}

/-- The field that the items of a record have in the end. -/
def Record.itemField (n : Naming) (m : Model) (r : Record) : String :=
  let field := n.itemFieldName (m.prop r.candidate.prop).name r.candidate.directive.fieldName
  if field = "" then (m.prop r.candidate.prop).field else field

theorem Record.Settles.nodup_fields_iff (h : r.Settles n m m' w q) :
    (m'.fields w).Nodup ↔
      ((m.prop r.candidate.prop).kind = .mixed → r.itemField n m ≠ textRunsName) := by
  have hfield : (m'.prop r.candidate.prop).field = r.itemField n m := by
    rw [h.moved]
    rfl
  by_cases hk : (m.prop r.candidate.prop).kind = .mixed
  · obtain ⟨x, hx, htext⟩ := h.mixed hk
    simp [Model.fields, hx, htext, Property.textRuns, hfield, hk]
  · simp [Model.fields, h.alone hk, hk]

/-! ### The field of the text -/

namespace Naming

variable {element : String} {explicit : Option String}

theorem itemFieldName_some {name : String} (h : name ≠ "") :
    n.itemFieldName element (some name) = n.escapes.apply name := by
  rw [itemFieldName, Option.filter_some_pos (by simpa using h)]

theorem itemFieldName_of_none (h : explicit = none ∨ explicit = some "") :
    n.itemFieldName element explicit = sanitize n.escapes .snake element := by
  rcases h with rfl | rfl
  · rfl
  · rfl

theorem itemFieldName_ne_empty (hn : n.escapes = defaultEscapes) (element : String)
    (explicit : Option String) : n.itemFieldName element explicit ≠ "" := by
  by_cases h : explicit = none ∨ explicit = some ""
  · rw [itemFieldName_of_none h, hn]
    exact (sanitized .snake element).ne_empty
  · obtain ⟨name, rfl⟩ : ∃ name, explicit = some name :=
      Option.ne_none_iff_exists'.mp fun hnone => h (Or.inl hnone)
    have hname : name ≠ "" := by simpa using h
    rw [itemFieldName_some hname, hn]
    rcases apply_defaultEscapes name with e | e <;> simp [e, hname]

/-- A field of that name was asked for, or comes of the words `any` and `text`. -/
theorem itemFieldName_eq_textRunsName_iff (hn : n.escapes = defaultEscapes) (element : String)
    (explicit : Option String) : n.itemFieldName element explicit = textRunsName ↔
      explicit = some textRunsName ∨ (explicit = none ∨ explicit = some "") ∧
        smallWords element.toList = ["any".toList, "text".toList] := by
  have hreserved : textRunsName ∉ reserved := by decide
  have hlast : textRunsName.toList.getLast? ≠ some '_' := by decide
  by_cases h : explicit = none ∨ explicit = some ""
  · have hsnake : sanitize defaultEscapes .snake element = textRunsName ↔
        smallWords element.toList = ["any".toList, "text".toList] :=
      sanitize_snake_eq_iff hreserved hlast rfl (by simp) (by decide)
    rw [itemFieldName_of_none h, hn, hsnake]
    rcases h with rfl | rfl <;> simp [textRunsName]
  · obtain ⟨name, rfl⟩ : ∃ name, explicit = some name :=
      Option.ne_none_iff_exists'.mp fun hnone => h (Or.inl hnone)
    have hname : name ≠ "" := by simpa using h
    rw [itemFieldName_some hname, hn, apply_defaultEscapes_eq_iff hreserved hlast]
    simp [hname]

end Naming

theorem Record.itemField_eq_textRunsName_iff (hn : n.escapes = Naming.defaultEscapes) :
    r.itemField n m = textRunsName ↔ r.candidate.directive.fieldName = some textRunsName ∨
      (r.candidate.directive.fieldName = none ∨ r.candidate.directive.fieldName = some "") ∧
        Naming.smallWords (m.prop r.candidate.prop).name.toList =
          ["any".toList, "text".toList] := by
  unfold itemField
  rw [if_neg (Naming.itemFieldName_ne_empty hn _ _)]
  exact Naming.itemFieldName_eq_textRunsName_iff hn _ _

namespace Pass

variable {s t : PassState} {p : Pass} {result : PassResult}

/-- Wrappers have distinct fields and names, unless mixed items have those of the text around them.
-/
theorem textRuns_apart {v : Value} (hm : Model.ofValue v = .ok s.model)
    (h : p.run.run s = .ok result t) : ∀ w ∈ result.wrappers, ∃ r ∈ result.records,
      r.deleted = false ∧ r.wrapper = some w ∧
      ((t.model.fields w).Nodup ↔ ((s.model.prop r.candidate.prop).kind = .mixed →
        r.itemField p.naming s.model ≠ textRunsName)) ∧
      ((t.model.propertyNames w).Nodup ↔ ((s.model.prop r.candidate.prop).kind = .mixed →
        (s.model.prop r.candidate.prop).name ≠ textRunsName)) ∧
      (p.naming.escapes = Naming.defaultEscapes → (r.itemField p.naming s.model = textRunsName ↔
        r.candidate.directive.fieldName = some textRunsName ∨
          (r.candidate.directive.fieldName = none ∨ r.candidate.directive.fieldName = some "") ∧
            Naming.smallWords (s.model.prop r.candidate.prop).name.toList =
              ["any".toList, "text".toList])) := by
  intro w hw
  obtain ⟨r, hr, hd, q, hset⟩ :=
    (reshaped_of_described (Model.described_ofValue hm) h).settles_of_mem hw
  exact ⟨r, hr, hd, hset.wrapper, hset.nodup_fields_iff, hset.nodup_propertyNames_iff,
    fun hn => Record.itemField_eq_textRunsName_iff hn⟩

/-- Mixed content in the field of its text by name, on demand, and not at all. -/
def mixedContents : Value :=
  .object [("package", .text "doc"), ("classes", .list [
    .object [("name", .text "Para"), ("properties", .list [
      .object [("name", .text "anyText"), ("kind", .text "mixed"), ("repeated", .bool true)],
      .object [("name", .text "note"), ("kind", .text "mixed"), ("repeated", .bool true),
        ("customization", .object [("field", .text "any_text")])],
      .object [("name", .text "any_text"), ("kind", .text "mixed"), ("repeated", .bool true),
        ("customization", .object [("field", .text "parts")])]])]])]

theorem textRuns_apart_of_mixedContents : ∃ m result t, Model.ofValue mixedContents = .ok m ∧
    (⟨{}, none, {}⟩ : Pass).run.run { model := m } = .ok result t ∧
      result.wrappers.map t.model.fields =
        [["any_text", "any_text"], ["any_text", "any_text"], ["parts", "any_text"]] ∧
      result.wrappers.map t.model.propertyNames =
        [["anyText", "any_text"], ["note", "any_text"], ["any_text", "any_text"]] ∧
      ∀ w ∈ result.wrappers, ∃ r ∈ result.records, r.wrapper = some w ∧
        ((t.model.fields w).Nodup ↔
          ((m.prop r.candidate.prop).kind = .mixed → r.itemField {} m ≠ textRunsName)) ∧
        ((t.model.propertyNames w).Nodup ↔ ((m.prop r.candidate.prop).kind = .mixed →
          (m.prop r.candidate.prop).name ≠ textRunsName)) := by
  obtain ⟨m, result, t, hm, hr, hfields, hnames⟩ := exists_run_of_ran? ⟨{}, none, {}⟩ mixedContents
    (fun _ result t => result.wrappers.map t.model.fields =
        [["any_text", "any_text"], ["any_text", "any_text"], ["parts", "any_text"]] ∧
      result.wrappers.map t.model.propertyNames =
        [["anyText", "any_text"], ["note", "any_text"], ["any_text", "any_text"]])
    (by decide +kernel)
  have hapart := textRuns_apart (p := ⟨{}, none, {}⟩) (s := { model := m }) hm hr
  refine ⟨m, result, t, hm, hr, hfields, hnames, fun w hw => ?_⟩
  obtain ⟨r, hr, -, hrw, hf, hn, -⟩ := hapart w hw
  exact ⟨r, hr, hrw, hf, hn⟩

/-- Mixed content by the words of the field of its text. -/
def anyTextParagraph : Value :=
  .object [("package", .text "doc"), ("classes", .list [
    .object [("name", .text "Para"), ("properties", .list [
      .object [("name", .text "anyText"), ("kind", .text "mixed"), ("repeated", .bool true)]])]])]

/-- So the items and the text around them can end in one field. -/
theorem field_shared_with_text : ¬ ∀ (v : Value) (p : Pass) (s t : PassState) (result : PassResult),
    Model.ofValue v = .ok s.model → p.run.run s = .ok result t → ∀ w ∈ result.wrappers,
      (t.model.fields w).Nodup ∧ (t.model.propertyNames w).Nodup := by
  intro claim
  obtain ⟨m, result, t, hm, hr, w, hw, hshared⟩ := exists_run_of_ran? ⟨{}, none, {}⟩
    anyTextParagraph (fun _ result t => ∃ w ∈ result.wrappers, ¬ (t.model.fields w).Nodup)
    (by decide +kernel)
  exact hshared (claim anyTextParagraph _ { model := m } t result hm hr w hw).1

end Pass
end Enfold
