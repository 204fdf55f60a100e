import Enfold.Proofs.Pass.Remains
import Enfold.Proofs.Pass.Uniqueness

/-! # Names of properties after a run

The field of a reference is free among the fields of its class, and the reference is called like its
field. So a class comes to have two properties of one name only if one that has stayed is called
like the field that is free. Apart from that every property has a path of its own, unless its name
goes on like that of a class.
-/

namespace Enfold

/-! ### Paths -/

theorem append_point_eq_iff {x y s t : String} : x ++ "." ++ s = y ++ "." ++ t ↔
    x = y ∧ s = t ∨ (∃ way, y = x ++ "." ++ way ∧ s = way ++ "." ++ t) ∨
      ∃ way, x = y ++ "." ++ way ∧ t = way ++ "." ++ s := by
  constructor
  · -- The part that is longer by some text goes on with a point.
    have goes_on {x y s t : String} {a : List Char} (hy : y.toList = x.toList ++ a)
        (hs : '.' :: s.toList = a ++ '.' :: t.toList) :
        x = y ∧ s = t ∨ ∃ way, y = x ++ "." ++ way ∧ s = way ++ "." ++ t := by
      cases a with
      | nil =>
        exact Or.inl ⟨String.toList_inj.mp (by simpa using hy.symm),
          String.toList_inj.mp (by simpa using hs)⟩
      | cons ch way =>
        rw [List.cons_append, List.cons.injEq] at hs
        obtain ⟨rfl, hs⟩ := hs
        refine Or.inr ⟨String.ofList way, String.toList_inj.mp ?_, String.toList_inj.mp ?_⟩
        · simp [hy]
        · simp [hs]
    intro h
    have h : x.toList ++ '.' :: s.toList = y.toList ++ '.' :: t.toList := by
      simpa using congrArg String.toList h
    rcases List.append_eq_append_iff.mp h with ⟨a, hy, hs⟩ | ⟨a, hx, ht⟩
    · exact (goes_on hy hs).imp_right Or.inl
    · exact (goes_on hx ht).imp (fun ⟨e, e'⟩ => ⟨e.symm, e'.symm⟩) Or.inr
  · rintro (⟨rfl, rfl⟩ | ⟨way, rfl, rfl⟩ | ⟨way, rfl, rfl⟩) <;> simp [String.append_assoc]

theorem find?_eq_of_unique {α : Type} {f : α → Bool} {l : List α} {a : α} (ha : a ∈ l)
    (hf : f a = true) (hu : ∀ b ∈ l, f b = true → b = a) : l.find? f = some a := by
  obtain ⟨b, hb⟩ := Option.isSome_iff_exists.mp (List.find?_isSome.mpr ⟨a, ha, hf⟩)
  rw [hb, hu b (List.mem_of_find?_eq_some hb) (List.find?_some hb)]

namespace Model

variable {m : Model} {c d : ClassId} {p q : PropertyId}

def propertyNames (m : Model) (c : ClassId) : List String :=
  (m.decl c).properties.map fun p => (m.prop p).name

/-- The name of `p` in `c` is the way to `d` and the name of `q` there. -/
def Leads (m : Model) (c : ClassId) (p : PropertyId) (d : ClassId) (q : PropertyId) : Prop :=
  ∃ way, m.qualifiedName d = m.qualifiedName c ++ "." ++ way ∧
    (m.prop p).name = way ++ "." ++ (m.prop q).name

/-- No name leads from property `p` of class `c` or to it. -/
def Unled (m : Model) (c : ClassId) (p : PropertyId) : Prop :=
  ∀ d ∈ m.walk, ∀ q ∈ (m.decl d).properties, ¬ m.Leads c p d q ∧ ¬ m.Leads d q c p

def OwnsPath (m : Model) (p : PropertyId) : Prop :=
  ∀ q ∈ m.walkProperties, m.path q = m.path p → q = p

theorem propertyNamed?_eq (hn : (m.propertyNames c).Nodup) (hp : p ∈ (m.decl c).properties) :
    m.propertyNamed? c (m.prop p).name = some p := by
  refine find?_eq_of_unique hp (by simp) fun q hq hname => ?_
  exact List.inj_on_of_nodup_map hn hq hp (by simpa using hname)

theorem path_eq (hm : m.Linked) (hp : p ∈ (m.decl c).properties) :
    m.path p = m.qualifiedName c ++ "." ++ (m.prop p).name := by
  rw [path, hm.mem_iff_owner.mp hp]

/-- Two properties share a path exactly if a name of one leads to the other. -/
theorem path_eq_iff (hm : m.Linked) (hc : (m.walk.map m.qualifiedName).Nodup)
    (hn : (m.propertyNames c).Nodup) (hp : p ∈ (m.decl c).properties)
    (hq : q ∈ (m.decl d).properties) :
    m.path p = m.path q ↔ p = q ∨ m.Leads c p d q ∨ m.Leads d q c p := by
  rw [path_eq hm hp, path_eq hm hq, append_point_eq_iff]
  refine or_congr_left ⟨fun ⟨hname, e⟩ => ?_, ?_⟩
  · have hwalk {c : ClassId} {p : PropertyId} (hp : p ∈ (m.decl c).properties) : c ∈ m.walk :=
      (mem_walk hm).mpr (class_lt_of_mem hp)
    obtain rfl := List.inj_on_of_nodup_map hc (hwalk hp) (hwalk hq) hname
    exact List.inj_on_of_nodup_map hn hp hq e
  · rintro rfl
    rw [hm.owner_unique hp hq]
    exact ⟨rfl, rfl⟩

theorem ownsPath_iff_unled (hm : m.Linked) (hc : (m.walk.map m.qualifiedName).Nodup)
    (hn : (m.propertyNames c).Nodup) (hp : p ∈ (m.decl c).properties) :
    m.OwnsPath p ↔ m.Unled c p := by
  constructor
  · intro h d hd q hq
    -- No name leads from a property to itself, as the class would be inside itself.
    have hne : ¬ (m.Leads c p d q ∨ m.Leads d q c p) := by
      intro hl
      obtain rfl := h q (mem_walkProperties hd hq) ((path_eq_iff hm hc hn hp hq).mpr (.inr hl)).symm
      obtain rfl := hm.owner_unique hp hq
      obtain ⟨way, hway, -⟩ := or_self_iff.mp hl
      have hlen := congrArg String.length hway
      rw [String.length_append, String.length_append, show ".".length = 1 from rfl] at hlen
      omega
    exact not_or.mp hne
  · intro h q hq hpath
    obtain ⟨d, hd, hqd⟩ := List.mem_flatMap.mp hq
    rcases (path_eq_iff hm hc hn hp hqd).mp hpath.symm with e | hl | hl
    · exact e.symm
    · exact absurd hl (h d hd q hqd).1
    · exact absurd hl (h d hd q hqd).2

theorem findProperty?_path (hm : m.Linked) (hp : p ∈ (m.decl c).properties) (h : m.OwnsPath p) :
    m.findProperty? (m.path p) = some p :=
  find?_eq_of_unique (mem_walkProperties ((mem_walk hm).mpr (class_lt_of_mem hp)) hp) (by simp)
    fun q hq hpath => h q hq (by simpa using hpath)

end Model

/-! ### Names in a class -/

variable {n : Naming} {m m' : Model} {rs : List Record} {r : Record} {c w : ClassId}
  {p q : PropertyId}

theorem Record.Settles.name_eq_field (h : r.Settles n m m' w q) :
    (m'.prop q).name = (m'.prop q).field := by
  obtain ⟨_, _, _, hq⟩ := h.standIn
  rw [hq]
  rfl

theorem Record.Settles.nodup_propertyNames_iff (h : r.Settles n m m' w q) :
    (m'.propertyNames w).Nodup ↔ ((m.prop r.candidate.prop).kind = .mixed →
      (m.prop r.candidate.prop).name ≠ textRunsName) := by
  have hname : (m'.prop r.candidate.prop).name = (m.prop r.candidate.prop).name := by
    rw [h.moved]
    rfl
  by_cases hk : (m.prop r.candidate.prop).kind = .mixed
  · obtain ⟨x, hx, htext⟩ := h.mixed hk
    simp [Model.propertyNames, hx, htext, Property.textRuns, hname, hk]
  · simp [Model.propertyNames, h.alone hk, hk]

/-- No reference is called like a property beside it, nor mixed items like their text. -/
structure ReferencesApart (m : Model) (rs : List Record) (m' : Model) : Prop where
  kept_ne : ∀ r ∈ rs, r.deleted = false → ∀ q, r.reference = some q →
    ∀ p ∈ (m.decl r.candidate.owner).properties, (∀ r' ∈ rs, r'.candidate.prop ≠ p) →
      (m.prop p).name ≠ (m'.prop q).name
  text_ne : ∀ r ∈ rs, r.deleted = false → (m.prop r.candidate.prop).kind = .mixed →
    (m.prop r.candidate.prop).name ≠ textRunsName

namespace Reshaped

theorem nodup_propertyNames (h : Reshaped n m rs m') (hm : m.Linked)
    (hc : c.index < m.classes.size) (hn : (m.propertyNames c).Nodup) (hf : (m'.fields c).Nodup)
    (ha : ReferencesApart m rs m') : (m'.propertyNames c).Nodup := by
  refine (h.linked.nodup c).map_on fun x hx y hy e => ?_
  rcases h.kept_or_settled hm hc hx with
    ⟨hxm, hxr, hxp⟩ | ⟨r, hr, rfl, hdel, w, hset⟩ <;>
  rcases h.kept_or_settled hm hc hy with
    ⟨hym, hyr, hyp⟩ | ⟨r', hr', ho, hdel', w', hset'⟩
  · rw [hxp, hyp] at e
    exact List.inj_on_of_nodup_map hn hxm hym e
  · rw [hxp] at e
    exact absurd e (ha.kept_ne r' hr' hdel' y hset'.reference x (ho ▸ hxm) hxr)
  · rw [hyp] at e
    exact absurd e.symm (ha.kept_ne r hr hdel x hset.reference y hym hyr)
  · rw [hset.name_eq_field, hset'.name_eq_field] at e
    exact List.inj_on_of_nodup_map hf hx hy e

theorem mem_of_kept (h : Reshaped n m rs m') (hm : m.Linked)
    (hd : (rs.map fun r => r.candidate.prop).Nodup) (hr : r ∈ rs) (hdel : r.deleted = false)
    (hq : r.reference = some q) (hp : p ∈ (m.decl r.candidate.owner).properties)
    (hkept : ∀ r' ∈ rs, r'.candidate.prop ≠ p) :
    p ∈ (m'.decl r.candidate.owner).properties ∧ q ∈ (m'.decl r.candidate.owner).properties ∧
      p ≠ q ∧ m'.prop p = m.prop p := by
  rw [h.properties _ (Model.class_lt_of_mem hp)]
  have hlt := hm.lt_of_mem hp
  refine ⟨?_, ?_, ?_, h.prop_eq p hlt hkept⟩
  · exact List.mem_flatMap.mpr ⟨p, hp, by simp [slot_of_ne hkept]⟩
  · refine List.mem_flatMap.mpr ⟨_, h.mem r hr, ?_⟩
    simp [slot_of_mem hd hr, hdel, hq]
  · rintro rfl
    obtain ⟨_, x, hset⟩ := h.settled r hr hdel
    obtain rfl : x = p := Option.some.inj (hset.reference.symm.trans hq)
    exact absurd hlt (Nat.not_lt.mpr hset.reference_new)

/-- Names stay distinct exactly if the references are apart. -/
theorem nodup_propertyNames_iff (h : Reshaped n m rs m') (hm : m.Linked)
    (hd : (rs.map fun r => r.candidate.prop).Nodup)
    (hn : ∀ c ∈ m.walk, (m.propertyNames c).Nodup) (hf : ∀ c ∈ m.walk, (m'.fields c).Nodup) :
    (∀ c ∈ m'.walk, (m'.propertyNames c).Nodup) ↔ ReferencesApart m rs m' := by
  constructor
  · intro hall
    refine ⟨fun r hr hdel q hq p hp hkept => ?_, fun r hr hdel => ?_⟩
    · obtain ⟨hpm, hqm, hne, hsame⟩ := h.mem_of_kept hm hd hr hdel hq hp hkept
      have hwalk := (Model.mem_walk h.linked).mpr (Model.class_lt_of_mem hpm)
      rw [← hsame]
      exact fun e => hne (List.inj_on_of_nodup_map (hall _ hwalk) hpm hqm e)
    · obtain ⟨w, q, hset⟩ := h.settled r hr hdel
      have hw := (Model.mem_walk h.linked).mpr (Model.class_lt_of_mem hset.mem_properties)
      exact hset.nodup_propertyNames_iff.mp (hall w hw)
  · intro ha c hc
    rcases List.mem_append.mp ((h.perm_walk hm).mem_iff.mp hc) with hc | hc
    · exact h.nodup_propertyNames hm ((Model.mem_walk hm).mp hc) (hn c hc) (hf c hc) ha
    · obtain ⟨r, hr, hdel, q, hset⟩ := h.settles_of_mem hc
      exact hset.nodup_propertyNames_iff.mpr (ha.text_ne r hr hdel)

theorem referencesApart (h : Reshaped n m rs m') (hm : m.Linked)
    (hd : (rs.map fun r => r.candidate.prop).Nodup)
    (he : ∀ c ∈ m.walk, ∀ p ∈ (m.decl c).properties, (m.prop p).name = (m.prop p).field)
    (hf : ∀ c ∈ m.walk, (m'.fields c).Nodup)
    (ht : ∀ r ∈ rs, r.deleted = false → (m.prop r.candidate.prop).kind = .mixed →
      (m.prop r.candidate.prop).name ≠ textRunsName) : ReferencesApart m rs m' where
  kept_ne r hr hdel q hq p hp hkept := by
    obtain ⟨hpm, hqm, hne, hsame⟩ := h.mem_of_kept hm hd hr hdel hq hp hkept
    obtain ⟨w, x, hset⟩ := h.settled r hr hdel
    obtain rfl : x = q := Option.some.inj (hset.reference.symm.trans hq)
    have hwalk := (Model.mem_walk hm).mpr (Model.class_lt_of_mem hp)
    rw [he _ hwalk p hp, hset.name_eq_field, ← hsame]
    exact fun e => hne (List.inj_on_of_nodup_map (hf _ hwalk) hpm hqm e)
  text_ne := ht

end Reshaped

namespace Pass

variable {s t : PassState} {p : Pass} {result : PassResult}

theorem nodup_propertyNames_of_run (hm : s.model.Described) (h : p.run.run s = .ok result t)
    (hf : ∀ c ∈ s.model.walk, (s.model.fields c).Nodup)
    (he : ∀ c ∈ s.model.walk, ∀ q ∈ (s.model.decl c).properties,
      (s.model.prop q).name = (s.model.prop q).field)
    (ht : ∀ q ∈ s.model.walkProperties, (s.model.prop q).kind = .mixed →
      (s.model.prop q).name ≠ textRunsName) :
    ∀ c ∈ t.model.walk, (t.model.propertyNames c).Nodup := by
  have hs := reshaped_of_described hm h
  have hd := nodup_of_run hm h
  have hft (c) (hc : c ∈ s.model.walk) := nodup_fields_of_run hm h hc (hf c hc)
  refine (hs.nodup_propertyNames_iff hm.toLinked hd (fun c hc => ?_) hft).mpr
    (hs.referencesApart hm.toLinked hd he hft fun r hr _ => ht _ ?_)
  · have : s.model.propertyNames c = s.model.fields c := List.map_congr_left (he c hc)
    exact this ▸ hf c hc
  · have hmem := hs.mem r hr
    exact Model.mem_walkProperties
      ((Model.mem_walk hm.toLinked).mpr (Model.class_lt_of_mem hmem)) hmem

/-- Names stay distinct exactly if references are apart, and paths exactly if no name leads to
another property. -/
theorem paths_of_run {v : Value} (hm : Model.ofValue v = .ok s.model)
    (hnames : ∀ c ∈ s.model.walk, (s.model.decl c).name ≠ "" ∧ Pointless (s.model.decl c).name)
    (hnodup : ∀ c ∈ s.model.walk, (s.model.propertyNames c).Nodup ∧ (s.model.fields c).Nodup)
    (h : p.run.run s = .ok result t) :
    ((∀ c ∈ t.model.walk, (t.model.propertyNames c).Nodup) ↔
        ReferencesApart s.model result.records t.model) ∧
      (∀ c ∈ t.model.walk, (t.model.propertyNames c).Nodup → ∀ q ∈ (t.model.decl c).properties,
        t.model.propertyNamed? c (t.model.prop q).name = some q) ∧
      (p.naming.escapes = Naming.defaultEscapes →
        (∀ f, p.control = some f → f.IsRead) →
        ∀ c ∈ t.model.walk, (t.model.propertyNames c).Nodup → ∀ q ∈ (t.model.decl c).properties,
          (t.model.OwnsPath q ↔ t.model.Unled c q) ∧
            (t.model.OwnsPath q → t.model.findProperty? (t.model.path q) = some q)) := by
  have hd := Model.described_ofValue hm
  have hs := reshaped_of_described hd h
  refine ⟨?_, fun c _ hn q hq => Model.propertyNamed?_eq hn hq, fun hescapes hcontrol => ?_⟩
  · exact hs.nodup_propertyNames_iff hd.toLinked (nodup_of_run hd h) (fun c hc => (hnodup c hc).1)
      fun c hc => nodup_fields_of_run hd h hc (hnodup c hc).2
  · have hc := nodup_qualifiedName_of_run hm hnames hescapes hcontrol h
    exact fun c _ hn q hq => ⟨Model.ownsPath_iff_unled hs.linked hc hn hq,
      Model.findProperty?_path hs.linked hq⟩

/-- Orders with a count in the field for the reference to their items. -/
def countedItems : Value :=
  .object [("package", .text "shop"), ("classes", .list [
    .object [("name", .text "Order"), ("properties", .list [
      .object [("name", .text "count"), ("field", .text "items")],
      .object [("name", .text "item"), ("repeated", .bool true)],
      .object [("name", .text "note"), ("kind", .text "mixed"), ("repeated", .bool true)]])]])]

theorem paths_of_countedItems_run : ∃ m result t, Model.ofValue countedItems = .ok m ∧
    (⟨{}, none, {}⟩ : Pass).run.run { model := m } = .ok result t ∧
      t.model.walkProperties.map t.model.path = ["shop.Order.count", "shop.Order.items1",
        "shop.Order.notes", "shop.Items.item", "shop.Notes.note", "shop.Notes.any_text"] ∧
      ((∀ c ∈ t.model.walk, (t.model.propertyNames c).Nodup) ↔
        ReferencesApart m result.records t.model) ∧
      (∀ c ∈ t.model.walk, ∀ q ∈ (t.model.decl c).properties,
        t.model.propertyNamed? c (t.model.prop q).name = some q) ∧
      ∀ c ∈ t.model.walk, ∀ q ∈ (t.model.decl c).properties,
        (t.model.OwnsPath q ↔ t.model.Unled c q) ∧
          (t.model.OwnsPath q → t.model.findProperty? (t.model.path q) = some q) := by
  obtain ⟨m, result, t, hm, hr, hnames, hnodup, hpaths, hall⟩ :=
    exists_run_of_ran? ⟨{}, none, {}⟩ countedItems (fun m _ t =>
      (∀ c ∈ m.walk, (m.decl c).name ≠ "" ∧ Pointless (m.decl c).name) ∧
      (∀ c ∈ m.walk, (m.propertyNames c).Nodup ∧ (m.fields c).Nodup) ∧
      t.model.walkProperties.map t.model.path = ["shop.Order.count", "shop.Order.items1",
        "shop.Order.notes", "shop.Items.item", "shop.Notes.note", "shop.Notes.any_text"] ∧
      ∀ c ∈ t.model.walk, (t.model.propertyNames c).Nodup) (by decide +kernel)
  obtain ⟨hiff, hnamed, hpath⟩ := paths_of_run (p := ⟨{}, none, {}⟩) (s := { model := m }) hm
    hnames hnodup hr
  exact ⟨m, result, t, hm, hr, hpaths, hiff, fun c hc => hnamed c hc (hall c hc),
    fun c hc => hpath rfl (by simp) c hc (hall c hc)⟩

def thingsAsItems : Value :=
  .object [("package", .text "shop"), ("classes", .list [
    .object [("name", .text "Order"), ("properties", .list [
      .object [("name", .text "items"), ("field", .text "things")],
      .object [("name", .text "item"), ("repeated", .bool true)]])]])]

/-- A reference may be called like a property in another field. -/
theorem reference_shares_name : ¬ ∀ (v : Value) (p : Pass) (s t : PassState) (result : PassResult),
    Model.ofValue v = .ok s.model →
    (∀ c ∈ s.model.walk, (s.model.decl c).name ≠ "" ∧ Pointless (s.model.decl c).name) →
    (∀ c ∈ s.model.walk, (s.model.propertyNames c).Nodup ∧ (s.model.fields c).Nodup) →
    p.run.run s = .ok result t →
      ∀ c ∈ t.model.walk, (t.model.propertyNames c).Nodup := by
  intro claim
  obtain ⟨m, result, t, hm, hr, hnames, hnodup, c, hc, hshared⟩ :=
    exists_run_of_ran? ⟨{}, none, {}⟩ thingsAsItems (fun m _ t =>
      (∀ c ∈ m.walk, (m.decl c).name ≠ "" ∧ Pointless (m.decl c).name) ∧
      (∀ c ∈ m.walk, (m.propertyNames c).Nodup ∧ (m.fields c).Nodup) ∧
      ∃ c ∈ t.model.walk, ¬ (t.model.propertyNames c).Nodup) (by decide +kernel)
  exact hshared (claim thingsAsItems _ { model := m } t result hm hnames hnodup hr c hc)

end Pass
end Enfold
