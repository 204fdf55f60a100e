import Enfold.Proofs.Binding.Mirror
import Enfold.Proofs.Model.Names

/-! # Versions of a class

The containers of a class may be made with each object, at the first use, or by the caller alone.
Two versions of a class that differ in nothing else do the same to heaps that mirror each other, as
long as both make containers.
-/

namespace Enfold

namespace Instance

def means (field : Option String) (x : Property) : Bool :=
  match field with
  | none => !x.synthetic
  | some f => x.field = f

theorem wrappedField_eq_find (m : Model) (c : ClassId) (field : Option String) :
    wrappedField m c field =
      (((m.decl c).properties.find? (means field ∘ m.prop)).map (Except.ok ∘ m.prop)).getD
        (.error (.noField (m.qualifiedName c) field)) := by
  have hmap : ((m.decl c).properties.map m.prop).find? (means field) =
      ((m.decl c).properties.find? (means field ∘ m.prop)).map m.prop := List.find?_map
  unfold wrappedField
  dsimp only
  split
  · next x hx =>
    obtain ⟨p, hp, rfl⟩ := Option.map_eq_some_iff.mp (hmap.symm.trans hx)
    rw [hp]
    rfl
  · next hx =>
    rw [Option.map_eq_none_iff.mp (hmap.symm.trans hx)]
    rfl

theorem exists_mem_of_wrappedField {m : Model} {c : ClassId} {field : Option String} {x : Property}
    (h : wrappedField m c field = .ok x) : ∃ p ∈ (m.decl c).properties, m.prop p = x := by
  rw [wrappedField_eq_find] at h
  cases hp : (m.decl c).properties.find? (means field ∘ m.prop) with
  | none =>
    rw [hp] at h
    cases h
  | some p =>
    rw [hp] at h
    exact ⟨p, List.mem_of_find?_eq_some hp, Except.ok.inj h⟩

end Instance

namespace Model

variable {m m' : Model} {c d : ClassId} {p : PropertyId} {i : Instantiation}

/-- The model with all containers of a class made in one way. -/
def instantiating (m : Model) (c : ClassId) (i : Instantiation) : Model :=
  { m with properties := m.properties.mapIdx fun k x =>
      if ⟨k⟩ ∈ (m.decl c).properties then { x with instantiation := some i } else x }

theorem prop_instantiating (hlt : p.index < m.properties.size) :
    (m.instantiating c i).prop p =
      if p ∈ (m.decl c).properties then { m.prop p with instantiation := some i }
      else m.prop p := by
  simp [prop, instantiating, hlt]

theorem prop_instantiating_of_mem (hm : m.Linked) (hp : p ∈ (m.decl c).properties) :
    (m.instantiating c i).prop p = { m.prop p with instantiation := some i } := by
  rw [prop_instantiating (hm.lt_of_mem hp), if_pos hp]

theorem prop_instantiating_of_notMem (hp : p ∉ (m.decl c).properties) :
    (m.instantiating c i).prop p = m.prop p := by
  by_cases hlt : p.index < m.properties.size
  · rw [prop_instantiating hlt, if_neg hp]
  · rw [prop_of_size_le (Nat.le_of_not_lt hlt), prop_of_size_le]
    simpa [instantiating] using hlt

/-- Two models that differ in how the containers of one class are made. -/
structure Versions (m m' : Model) (c : ClassId) : Prop where
  classes : m'.classes = m.classes
  prop_eq : ∀ p, ∃ i, m'.prop p = { m.prop p with instantiation := i }
  prop_of_ne : ∀ d, d ≠ c → ∀ p ∈ (m.decl d).properties, m'.prop p = m.prop p
  nodup : (m.fields c).Nodup

def LeavesAlike (m m' : Model) : Prop := ∀ d, ∀ p ∈ (m.decl d).properties,
  ((m'.prop p).instantiation = some .byCaller ↔ (m.prop p).instantiation = some .byCaller)

theorem field_instantiating (m : Model) (c : ClassId) (i : Instantiation) (p : PropertyId) :
    ∃ j, (m.instantiating c i).prop p = { m.prop p with instantiation := j } := by
  by_cases hp : p ∈ (m.decl c).properties
  · by_cases hlt : p.index < m.properties.size
    · exact ⟨some i, by rw [prop_instantiating hlt, if_pos hp]⟩
    · refine ⟨(m.prop p).instantiation, ?_⟩
      rw [prop_of_size_le (Nat.le_of_not_lt hlt), prop_of_size_le]
      simpa [instantiating] using hlt
  · exact ⟨(m.prop p).instantiation, by rw [prop_instantiating_of_notMem hp]⟩

theorem versions_instantiating (hm : m.Linked) (hn : (m.fields c).Nodup) (i i' : Instantiation) :
    Versions (m.instantiating c i) (m.instantiating c i') c where
  classes := rfl
  prop_eq p := by
    obtain ⟨j, hj⟩ := field_instantiating m c i p
    obtain ⟨j', hj'⟩ := field_instantiating m c i' p
    exact ⟨j', by rw [hj, hj']⟩
  prop_of_ne d hd p hp := by
    have hout : p ∉ (m.decl c).properties := fun hpc => hd (hm.owner_unique hp hpc)
    rw [prop_instantiating_of_notMem hout, prop_instantiating_of_notMem hout]
  nodup := by
    have hfields : (m.instantiating c i).fields c = m.fields c := by
      refine List.map_congr_left fun p _ => ?_
      obtain ⟨j, hj⟩ := field_instantiating m c i p
      rw [hj]
    rwa [hfields]

namespace Versions

theorem refl (hn : (m.fields c).Nodup) : Versions m m c where
  classes := rfl
  prop_eq p := ⟨(m.prop p).instantiation, rfl⟩
  prop_of_ne _ _ _ _ := rfl
  nodup := hn

theorem leavesAlike (hv : Versions m m' c) (hmakes : ∀ p ∈ (m.decl c).properties,
    (m.prop p).instantiation ≠ some .byCaller ∧ (m'.prop p).instantiation ≠ some .byCaller) :
    m.LeavesAlike m' := by
  intro d p hp
  by_cases hd : d = c
  · subst hd
    exact iff_of_false (hmakes p hp).2 (hmakes p hp).1
  · rw [hv.prop_of_ne d hd p hp]

theorem decl_eq (hv : Versions m m' c) (d : ClassId) : m'.decl d = m.decl d := by
  rw [decl, decl, hv.classes]

theorem qualifiedName_eq (hv : Versions m m' c) (d : ClassId) :
    m'.qualifiedName d = m.qualifiedName d :=
  qualifiedName_congr (fun d => by rw [hv.decl_eq]; exact ⟨rfl, rfl, rfl⟩) d

theorem newContainer_eq (hv : Versions m m' c) (p : PropertyId) :
    Instance.newContainer (m'.prop p) = Instance.newContainer (m.prop p) := by
  obtain ⟨i, hi⟩ := hv.prop_eq p
  rw [hi]
  rfl

theorem field_eq (hv : Versions m m' c) (p : PropertyId) :
    (m'.prop p).field = (m.prop p).field := by
  obtain ⟨i, hi⟩ := hv.prop_eq p
  rw [hi]

theorem wrappedField (hv : Versions m m' c) (d : ClassId) (field : Option String) :
    (∃ p ∈ (m.decl d).properties, Instance.wrappedField m d field = .ok (m.prop p) ∧
      Instance.wrappedField m' d field = .ok (m'.prop p)) ∨
    ∃ e, Instance.wrappedField m d field = .error e ∧
      Instance.wrappedField m' d field = .error e := by
  have hmeans : Instance.means field ∘ m'.prop = Instance.means field ∘ m.prop := by
    funext p
    obtain ⟨i, hi⟩ := hv.prop_eq p
    simp only [Function.comp_apply, hi]
    rfl
  rw [Instance.wrappedField_eq_find, Instance.wrappedField_eq_find, hv.decl_eq,
    hv.qualifiedName_eq, hmeans]
  cases hp : (m.decl d).properties.find? (Instance.means field ∘ m.prop) with
  | none => exact Or.inr ⟨_, rfl, rfl⟩
  | some p => exact Or.inl ⟨p, List.mem_of_find?_eq_some hp, rfl, rfl⟩

end Versions

end Model

namespace Heap

open Model (Versions)

variable {m m' : Model} {c : ClassId} {σ : Nat → Nat} {π : Nat → String → Option Nat} {h h' : Heap}
  {d v : Datum} {field : Option String} {i n : Nat} {Q : String → Cell → Prop}

def IsNew (m : Model) (c : ClassId) (f : String) (cell : Cell) : Prop :=
  ∃ p ∈ (m.decl c).properties, (m.prop p).field = f ∧ (m.prop p).instantiation ≠ some .byCaller ∧
    ∃ kind, Instance.newContainer (m.prop p) = .container kind [] ∧ cell = .container kind []

/-- The same datum is reached, in heaps that mirror each other. -/
def Reaches (Q : String → Cell → Prop) (c : ClassId) (σ : Nat → Nat) (h : Heap)
    (r r' : Heap × Datum) : Prop :=
  ∃ σ₁ π₁, Later σ σ₁ h r.1 ∧ Mirror Q c σ₁ π₁ r.1 r'.1 ∧ r.2.IsFlat r.1.cells.size ∧
    r'.2 = r.2.relabel σ₁

theorem Mirror.items_byCaller (hm : Mirror Q c σ π h h') {e : ClassId} {vs : Fields}
    {p p' : Property} (hi : h.cell? i = some (.object e vs))
    (hw : Instance.wrappedField m e field = .ok p) (hw' : Instance.wrappedField m' e field = .ok p')
    (hf : p'.field = p.field) (hb : p.instantiation = some .byCaller)
    (hb' : p'.instantiation = some .byCaller) (hx : Assoc.get? p.field vs = none)
    (hnone : π i p.field = none) :
    Agree (Reaches Q c σ h) (h.items m (.shared i) field) (h'.items m' (.shared (σ i)) field) := by
  obtain ⟨vs', hi', -, hmissing⟩ := hm.exists_object hi
  have hx' := hmissing p.field hx
  rw [hnone, ← hf] at hx'
  rw [items_of_byCaller hi hw hx hb, items_of_byCaller hi' hw' hx' hb']
  exact .ok ⟨σ, π, .refl σ h, hm, trivial, rfl⟩

theorem Mirror.items_taken (hm : Mirror Q c σ π h h') {e : ClassId} {vs : Fields} {x : Datum}
    {p p' : Property} (hi : h.cell? i = some (.object e vs))
    (hw : Instance.wrappedField m e field = .ok p) (hw' : Instance.wrappedField m' e field = .ok p')
    (hf : p'.field = p.field) (hx : Assoc.get? p.field vs = some x) :
    Agree (Reaches Q c σ h) (h.items m (.shared i) field) (h'.items m' (.shared (σ i)) field) := by
  obtain ⟨vs', hi', hheld, -⟩ := hm.exists_object hi
  have hx' := hheld p.field x hx
  rw [← hf] at hx'
  have hflat := hm.closed hi _ _ hx
  rw [items_of_get? hi hw hx hflat, items_of_get? hi' hw' hx' (hm.isFlat_relabel hflat)]
  exact .ok ⟨σ, π, .refl σ h, hm, hflat, rfl⟩

theorem Mirror.items_made (hm : Mirror Q c σ π h h') {e : ClassId} {vs : Fields} {p p' : Property}
    (hi : h.cell? i = some (.object e vs)) (hw : Instance.wrappedField m e field = .ok p)
    (hw' : Instance.wrappedField m' e field = .ok p') (hf : p'.field = p.field)
    (hk : Instance.newContainer p' = Instance.newContainer p)
    (hb : p.instantiation ≠ some .byCaller) (hb' : p'.instantiation ≠ some .byCaller)
    (hx : Assoc.get? p.field vs = none) (hnone : π i p.field = none) :
    Agree (Reaches Q c σ h) (h.items m (.shared i) field) (h'.items m' (.shared (σ i)) field) := by
  obtain ⟨vs', hi', -, hmissing⟩ := hm.exists_object hi
  obtain ⟨kind, hkind⟩ := Instance.exists_newContainer p
  have hx' := hmissing p.field hx
  rw [hnone, ← hf] at hx'
  rw [items_of_none hi hw hx hb hkind, items_of_none hi' hw' hx' hb' (hk.trans hkind), hf]
  refine .ok ⟨_, _, .update (by simp), hm.make hi hi' kind, ?_, ?_⟩
  · simp [Datum.IsFlat]
  · exact (Datum.relabel_update_self ..).symm

/-- A call for the items of a field reaches the same in both versions. -/
theorem Mirror.items (hv : Versions m m' c) (hleave : m.LeavesAlike m')
    (hm : Mirror (IsNew m c) c σ π h h') (hd : d.IsFlat h.cells.size) (field : Option String) :
    Agree (Reaches (IsNew m c) c σ h) (h.items m d field) (h'.items m' (d.relabel σ) field) := by
  cases d with
  | scalar | element => exact .error _
  | object | container => exact hd.elim
  | shared i =>
    rw [Datum.relabel]
    obtain ⟨cell, hi⟩ := exists_cell? hd
    cases cell with
    | container kind xs =>
      rw [items_of_container hi, items_of_container (hm.cell?_container hi)]
      exact .error _
    | object e vs =>
      obtain ⟨vs', hi', -, hmissing⟩ := hm.exists_object hi
      rcases hv.wrappedField e field with ⟨p, hp, hw, hw'⟩ | ⟨err, hw, hw'⟩
      swap
      · rw [items_of_error hi hw, items_of_error hi' hw']
        exact .error _
      rcases items_cases hm.closed hi hw with ⟨x, hx, -, -⟩ | ⟨hx, hb, -⟩ |
        ⟨hx, hb, kind, hk, hitems⟩
      · exact hm.items_taken hi hw hw' (hv.field_eq p) hx
      · refine hm.items_byCaller hi hw hw' (hv.field_eq p) hb ((hleave e p hp).mpr hb) hx ?_
        -- What is pending is a field that no version leaves to the caller.
        refine Option.eq_none_iff_forall_ne_some.mpr fun j hj => ?_
        obtain ⟨⟨ws, hi₂⟩, ⟨x, -, q, hq, hqf, hqb, -⟩, -⟩ := hm.pending hj
        cases hi.symm.trans hi₂
        obtain rfl : q = p := List.inj_on_of_nodup_map hv.nodup hq hp hqf
        exact hqb hb
      · have hb' := (hleave e p hp).not.mpr hb
        cases hj : π i (m.prop p).field with
        | none => exact hm.items_made hi hw hw' (hv.field_eq p) (hv.newContainer_eq p) hb hb' hx hj
        | some j =>
          have hx' := hmissing (m.prop p).field hx
          rw [hj, ← hv.field_eq p] at hx'
          obtain ⟨⟨ws, hi₂⟩, ⟨x, hx₂, q, hq, hqf, -, kind', hk₂, rfl⟩, -⟩ := hm.pending hj
          cases hi.symm.trans hi₂
          obtain rfl : q = p := List.inj_on_of_nodup_map hv.nodup hq hp hqf
          cases hk.symm.trans hk₂
          rw [hitems, items_of_get? (d := .shared j) hi' hw' hx' (lt_of_cell? hx₂)]
          refine .ok ⟨_, _, .update (by simp), hm.adopt hi hx hj hx₂, ?_, ?_⟩
          · simp [Datum.IsFlat]
          · exact (Datum.relabel_update_self ..).symm

def ReachesHeap (Q : String → Cell → Prop) (c : ClassId) (σ : Nat → Nat) (h t t' : Heap) : Prop :=
  ∃ σ₁ π₁, Later σ σ₁ h t ∧ Mirror Q c σ₁ π₁ t t'

theorem Mirror.put_agree {x : Datum} (hm : Mirror Q c σ π h h') (hd : d.IsFlat h.cells.size)
    (hx : x.IsFlat h.cells.size) (f : String) :
    Agree (ReachesHeap Q c σ h) (h.put d f x) (h'.put (d.relabel σ) f (x.relabel σ)) := by
  cases d with
  | scalar | element => exact .error _
  | object | container => exact hd.elim
  | shared i =>
    obtain ⟨cell, hi⟩ := exists_cell? hd
    cases cell with
    | container =>
      rw [Datum.relabel, put_of_container hi, put_of_container (hm.cell?_container hi)]
      exact .error _
    | object e vs =>
      obtain ⟨vs', hi', -⟩ := hm.exists_object hi
      rw [Datum.relabel, put_of_object hi, put_of_object hi']
      exact .ok ⟨σ, π, .of_size_eq (size_setCell _), hm.put hi hi' hx f⟩

theorem Mirror.pushTo_container {kind : ContainerKind} {xs : List Datum} (hm : Mirror Q c σ π h h')
    (hi : h.cell? i = some (.container kind xs)) (hx : v.IsFlat h.cells.size) (n : Nat)
    (field : Option String) : Agree (ReachesHeap Q c σ h) (h.pushTo m v (n + 1) (.shared i) field)
      (h'.pushTo m' (v.relabel σ) (n + 1) (.shared (σ i)) field) := by
  rw [Heap.pushTo_container hi, Heap.pushTo_container (hm.cell?_container hi)]
  exact .ok ⟨σ, π, .of_size_eq (size_setCell _), hm.append hi hx⟩

theorem Mirror.push_element_agree (hm : Mirror Q c σ π h h') (hi : i < h.cells.size)
    (hx : v.IsFlat h.cells.size) (y : Xml.Element) (f : String) :
    Agree (ReachesHeap Q c σ h)
      (Instance.push m v (.element y) >>= fun x => h.put (.shared i) f x)
      (Instance.push m' (v.relabel σ) (.element y) >>= fun x => h'.put (.shared (σ i)) f x) := by
  cases v with
  | element child =>
    have hput := hm.put_agree (d := .shared i) hi
      (x := .element { y with children := y.children ++ [child] }) trivial f
    simp only [Datum.relabel, Instance.push] at hput ⊢
    exact hput
  | scalar | shared =>
    simp only [Datum.relabel, Instance.push]
    exact .error _
  | object | container => exact hx.elim

theorem Mirror.pushTo_object (hv : Versions m m' c) {e : ClassId} {vs : Fields}
    (hm : Mirror Q c σ π h h') (hi : h.cell? i = some (.object e vs)) (hx : v.IsFlat h.cells.size)
    (hitems : Agree (Reaches Q c σ h) (h.items m (.shared i) field)
      (h'.items m' (.shared (σ i)) field))
    (hnext : ∀ σ₁ π₁ h₁ h₁' j, h.items m (.shared i) field = .ok (h₁, .shared j) →
      Mirror Q c σ₁ π₁ h₁ h₁' → j < h₁.cells.size → v.IsFlat h₁.cells.size →
      Agree (ReachesHeap Q c σ₁ h₁) (h₁.pushTo m v n (.shared j) none)
        (h₁'.pushTo m' (v.relabel σ₁) n (.shared (σ₁ j)) none)) :
    Agree (ReachesHeap Q c σ h) (h.pushTo m v (n + 1) (.shared i) field)
      (h'.pushTo m' (v.relabel σ) (n + 1) (.shared (σ i)) field) := by
  have hlt := lt_of_cell? hi
  obtain ⟨vs', hi', -⟩ := hm.exists_object hi
  rcases hv.wrappedField e field with ⟨p, hp, hw, hw'⟩ | ⟨err, hw, hw'⟩
  swap
  · rw [pushTo_error hi hw, pushTo_error hi' hw']
    exact .error _
  rw [Heap.pushTo_object hi hw, Heap.pushTo_object hi' hw', hv.qualifiedName_eq, hv.field_eq]
  generalize h.items m (.shared i) field = r, h'.items m' (.shared (σ i)) field = r'
    at hitems hnext
  cases hitems with
  | error => exact .error _
  | @ok r r' hr =>
    obtain ⟨h₁, inner⟩ := r
    obtain ⟨h₁', inner'⟩ := r'
    obtain ⟨σ₁, π₁, hl, hm₁, hflat, heq⟩ := hr
    dsimp only at hl hm₁ hflat heq
    subst heq
    have hx₁ := hl.isFlat hx
    rw [← hl.relabel_eq hx]
    have done {t t' : Heap} (hr : ReachesHeap Q c σ₁ h₁ t t') : ReachesHeap Q c σ h t t' := by
      obtain ⟨σ₂, π₂, hl₂, hm₂⟩ := hr
      exact ⟨σ₂, π₂, hl.trans hl₂, hm₂⟩
    dsimp only [bind, Except.bind]
    cases inner with
    | shared j => exact (hnext _ _ _ _ j rfl hm₁ hflat hx₁).mono fun _ _ => done
    | scalar s =>
      dsimp only [Datum.relabel]
      split
      · exact .error _
      · simp only [Instance.push]
        exact .error _
    | element y =>
      rw [← hl.eq_of_lt i hlt]
      exact (hm₁.push_element_agree (hl.isFlat (d := .shared i) hlt) hx₁ y _).mono fun _ _ => done
    | object | container => exact hflat.elim

theorem Mirror.pushTo (hv : Versions m m' c) (hleave : m.LeavesAlike m')
    (hm : Mirror (IsNew m c) c σ π h h') (hd : d.IsFlat h.cells.size) (hx : v.IsFlat h.cells.size)
    (n : Nat) (field : Option String) :
    Agree (ReachesHeap (IsNew m c) c σ h) (h.pushTo m v n d field)
      (h'.pushTo m' (v.relabel σ) n (d.relabel σ) field) := by
  induction n generalizing σ π h h' d field with
  | zero => exact .error _
  | succ n ih =>
    cases d with
    | scalar | element => exact .error _
    | object | container => exact hd.elim
    | shared i =>
      obtain ⟨cell, hi⟩ := exists_cell? hd
      cases cell with
      | container => exact hm.pushTo_container hi hx n field
      | object =>
        exact hm.pushTo_object hv hi hx (hm.items hv hleave (d := .shared i) hd field)
          fun _ _ _ _ j _ hm₁ hj hx₁ => ih hm₁ (d := .shared j) hj hx₁ none

theorem Mirror.setItems (hv : Versions m m' c) {x : Datum} (hm : Mirror Q c σ π h h')
    (hd : d.IsFlat h.cells.size) (hx : x.IsFlat h.cells.size) (field : Option String) :
    Agree (ReachesHeap Q c σ h) (h.setItems m d x field)
      (h'.setItems m' (d.relabel σ) (x.relabel σ) field) := by
  cases d with
  | scalar | element => exact .error _
  | object | container => exact hd.elim
  | shared i =>
    obtain ⟨cell, hi⟩ := exists_cell? hd
    cases cell with
    | container =>
      rw [Datum.relabel, setItems_of_container hi, setItems_of_container (hm.cell?_container hi)]
      exact .error _
    | object e vs =>
      obtain ⟨vs', hi', -⟩ := hm.exists_object hi
      have hput (p : PropertyId) := hm.put_agree (d := .shared i) hd hx (m.prop p).field
      rw [Datum.relabel] at hput ⊢
      rw [setItems_of_object hi, setItems_of_object hi']
      rcases hv.wrappedField e field with ⟨p, -, hw, hw'⟩ | ⟨err, hw, hw'⟩
      · rw [hw, hw']
        change Agree _ (h.put _ (m.prop p).field x) (h'.put _ (m'.prop p).field _)
        rw [hv.field_eq]
        exact hput p
      · rw [hw, hw']
        exact .error _

/-- One heap may have more cells than the other, and so allows more steps. -/
theorem Mirror.appendTo_object {e : ClassId} {vs : Fields} (hm : Mirror Q c σ π h h')
    (hi : h.cell? i = some (.object e vs))
    (hpush : Agree (ReachesHeap Q c σ h) (h.pushTo m v (h'.cells.size + 2) (.shared i) field)
      (h'.pushTo m' (v.relabel σ) (h'.cells.size + 2) (.shared (σ i)) field)) :
    Agree (ReachesHeap Q c σ h) (h.appendTo m (.shared i) v field)
      (h'.appendTo m' (.shared (σ i)) (v.relabel σ) field) := by
  obtain ⟨vs', hi', -⟩ := hm.exists_object hi
  rw [pushTo_of_le hm.closed (d := .shared i) (lt_of_cell? hi)
    (Nat.add_le_add_right hm.size_le 2)] at hpush
  rw [appendTo_of_object hi, appendTo_of_object hi']
  exact hpush

/-- Appending to a field reaches the same in both versions. -/
theorem Mirror.appendTo (hv : Versions m m' c) (hleave : m.LeavesAlike m')
    (hm : Mirror (IsNew m c) c σ π h h') (hd : d.IsFlat h.cells.size) (hx : v.IsFlat h.cells.size)
    (field : Option String) :
    Agree (ReachesHeap (IsNew m c) c σ h) (h.appendTo m d v field)
      (h'.appendTo m' (d.relabel σ) (v.relabel σ) field) := by
  cases d with
  | scalar | element => exact .error _
  | object | container => exact hd.elim
  | shared i =>
    obtain ⟨cell, hi⟩ := exists_cell? hd
    cases cell with
    | container =>
      rw [Datum.relabel, appendTo_of_container hi, appendTo_of_container (hm.cell?_container hi)]
      exact .error _
    | object =>
      exact hm.appendTo_object hi (hm.pushTo hv hleave (d := .shared i) hd hx _ field)

/-! ### Objects that are created -/

def AllEmpty (l : Fields) : Prop := ∀ e ∈ l, ∃ kind, e.2 = .container kind []

theorem storeFields_cons (h : Heap) (f : String) (kind : ContainerKind) (l : Fields) :
    h.storeFields ((f, .container kind []) :: l) =
      (((h.allocate (.container kind [])).1.storeFields l).1,
        (f, .shared h.cells.size) :: ((h.allocate (.container kind [])).1.storeFields l).2) := rfl

theorem Mirror.storeFields {l : Fields} (hl : AllEmpty l) (hm : Mirror Q c σ π h h') :
    ∃ σ₁ π₁, Later σ σ₁ h (h.storeFields l).1 ∧
      Mirror Q c σ₁ π₁ (h.storeFields l).1 (h'.storeFields l).1 ∧
      (∀ e ∈ (h.storeFields l).2, e.2.IsFlat (h.storeFields l).1.cells.size) ∧
      (h'.storeFields l).2 = (h.storeFields l).2.map fun e => (e.1, e.2.relabel σ₁) := by
  induction l generalizing σ π h h' with
  | nil => exact ⟨σ, π, .refl σ h, hm, fun e he => absurd he List.not_mem_nil, rfl⟩
  | cons e l ih =>
    obtain ⟨f, x⟩ := e
    obtain ⟨⟨kind, rfl⟩, hrest⟩ := List.forall_mem_cons.mp hl
    obtain ⟨σ₁, π₁, hlater, hm₁, hflat, heq⟩ := ih hrest (hm.allocate_empty kind)
    have hnew : (Datum.shared h.cells.size).IsFlat
        (h.allocate (.container kind [])).1.cells.size := by simp [Datum.IsFlat]
    rw [storeFields_cons, storeFields_cons]
    refine ⟨σ₁, π₁, .trans (.update (by simp)) hlater, hm₁, ?_, ?_⟩
    · rintro e (_ | ⟨_, he⟩)
      · exact hlater.isFlat hnew
      · exact hflat e he
    · rw [List.map_cons, heq, hlater.relabel_eq hnew, Datum.relabel_update_self]

theorem Mirror.store_object {l : Fields} (hl : AllEmpty l) (hm : Mirror Q c σ π h h')
    (e : ClassId) :
    Reaches Q c σ h (h.store (.object e l)) (h'.store (.object e l)) := by
  obtain ⟨σ₁, π₁, hlater, hm₁, hflat, heq⟩ := hm.storeFields hl
  have hcell : (Cell.object e (h.storeFields l).2).IsFlat (h.storeFields l).1.cells.size :=
    fun f x hx => hflat _ (Assoc.mem_of_get? hx)
  have hcells : CellMirror σ₁ (fun _ => none) (.object e (h.storeFields l).2)
      (.object e (h'.storeFields l).2) := .object e fun f => by
    rw [heq, Assoc.get?_map]
    cases Assoc.get? f (h.storeFields l).2 <;> rfl
  simp only [store]
  exact ⟨_, _, hlater.trans (.update (by simp)), hm₁.allocate_plain hcell hcells,
    isFlat_allocate _ _,
    (Datum.relabel_update_self ..).symm⟩

theorem storeFields_spec (h : Heap) {l : Fields} (hl : AllEmpty l) :
    h.cells.size ≤ (h.storeFields l).1.cells.size ∧
    (∀ i < h.cells.size, (h.storeFields l).1.cell? i = h.cell? i) ∧
    ∃ pend : String → Option Nat,
      (∀ f, Assoc.get? f (h.storeFields l).2 = (pend f).map .shared) ∧
      (∀ f j, pend f = some j → h.cells.size ≤ j ∧ ∃ kind,
        Assoc.get? f l = some (.container kind []) ∧
        (h.storeFields l).1.cell? j = some (.container kind [])) ∧
      ∀ f f' j, pend f = some j → pend f' = some j → f = f' := by
  induction l generalizing h with
  | nil => exact ⟨Nat.le_refl _, fun _ _ => rfl, fun _ => none, fun _ => rfl, nofun, nofun⟩
  | cons e l ih =>
    obtain ⟨f₀, x⟩ := e
    obtain ⟨⟨kind, rfl⟩, hrest⟩ := List.forall_mem_cons.mp hl
    obtain ⟨hsize, hold, pend, hget, hpend, hinj⟩ := ih (h.allocate (.container kind [])).1 hrest
    rw [size_allocate] at hsize hold hpend
    rw [storeFields_cons]
    dsimp only
    have hlt {f j} (hj : pend f = some j) : h.cells.size < j := (hpend f j hj).1
    refine ⟨by omega, fun i hi => ?_, fun f => if f₀ = f then some h.cells.size else pend f,
      fun f => ?_, fun f j hj => ?_, fun f f' j hj hj' => ?_⟩
    · rw [hold i (by omega), cell?_allocate_of_lt hi]
    · dsimp only
      rw [Assoc.get?]
      split
      · rfl
      · exact hget f
    · dsimp only at hj
      rw [Assoc.get?]
      split at hj
      · next hf =>
        cases hj
        rw [if_pos hf]
        refine ⟨Nat.le_refl _, kind, rfl, ?_⟩
        rw [hold _ (Nat.lt_succ_self _), cell?_allocate_self]
      · next hf =>
        rw [if_neg hf]
        exact ⟨Nat.le_of_lt (hlt hj), (hpend f j hj).2⟩
    · dsimp only at hj hj'
      split at hj <;> split at hj'
      · next hf hf' => exact hf.symm.trans hf'
      · cases hj; exact absurd (hlt hj') (Nat.lt_irrefl _)
      · cases hj'; exact absurd (hlt hj) (Nat.lt_irrefl _)
      · exact hinj f f' j hj hj'

theorem Mirror.store_pending {l : Fields} (hl : AllEmpty l)
    (hq : ∀ f kind, Assoc.get? f l = some (.container kind []) → Q f (.container kind []))
    (hm : Mirror Q c σ π h h') :
    Reaches Q c σ h (h.store (.object c [])) (h'.store (.object c l)) := by
  obtain ⟨hsize, hold, pend, hget, hpend, hinj⟩ := storeFields_spec h' hl
  have hcells : CellMirror σ pend (.object c []) (.object c (h'.storeFields l).2) := .object c hget
  have hflat : (Cell.object c []).IsFlat h.cells.size := nofun
  have hobject := (hm.mono_right hsize hold).allocate hflat hcells
    (fun f j hj => by
      obtain ⟨hle, kind, hf, hcell⟩ := hpend f j hj
      refine ⟨⟨[], rfl⟩, ⟨_, hcell, hq f kind hf⟩, fun k hk => ?_, fun i f' hi => ?_⟩
      · exact Nat.ne_of_lt (Nat.lt_of_lt_of_le (hm.lt hk) hle)
      · exact absurd (hm.lt_of_pending hi).2 (Nat.not_lt.mpr hle))
    hinj
  simp only [store, Heap.storeFields]
  exact ⟨_, _, .update (by simp), hobject, isFlat_allocate _ _,
    (Datum.relabel_update_self ..).symm⟩

end Heap

namespace Instance

variable {m m' : Model} {c d : ClassId}

theorem mem_fresh {e : String × Datum} (he : e ∈ fresh m c) : ∃ p ∈ (m.decl c).properties,
    (m.prop p).instantiation = some .eager ∧ e = ((m.prop p).field, newContainer (m.prop p)) := by
  have fold (l : List PropertyId) (fs : Fields) (he : e ∈ l.foldl (fun fs p =>
      let q := m.prop p
      if q.instantiation = some .eager then Assoc.put q.field (newContainer q) fs else fs) fs) :
      e ∈ fs ∨ ∃ p ∈ l, (m.prop p).instantiation = some .eager ∧
        e = ((m.prop p).field, newContainer (m.prop p)) := by
    induction l generalizing fs with
    | nil => exact Or.inl he
    | cons p l ih =>
      rcases ih _ he with he | ⟨q, hq, hqe⟩
      · dsimp only at he
        split at he
        · next hp =>
          rcases Assoc.mem_of_mem_put he with he | he
          · exact Or.inr ⟨p, List.mem_cons_self, hp, he⟩
          · exact Or.inl he
        · exact Or.inl he
      · exact Or.inr ⟨q, List.mem_cons_of_mem _ hq, hqe⟩
  unfold fresh at he
  split at he
  · exact (fold _ _ he).resolve_left List.not_mem_nil
  · cases he

theorem allEmpty_fresh (m : Model) (c : ClassId) : Heap.AllEmpty (fresh m c) := by
  intro e he
  obtain ⟨p, -, -, rfl⟩ := mem_fresh he
  exact exists_newContainer _

theorem fresh_eq_nil (h : ∀ p ∈ (m.decl c).properties, (m.prop p).instantiation ≠ some .eager) :
    fresh m c = [] := by
  refine List.eq_nil_iff_forall_not_mem.mpr fun e he => ?_
  obtain ⟨p, hp, hi, -⟩ := mem_fresh he
  exact h p hp hi

theorem fresh_of_ne (hv : Model.Versions m m' c) (hd : d ≠ c) : fresh m' d = fresh m d := by
  unfold fresh
  rw [hv.decl_eq]
  split
  · exact List.foldl_ext _ _ _ fun fs p hp => by rw [hv.prop_of_ne d hd p hp]
  · rfl

end Instance

namespace Heap

variable {m m' : Model} {c : ClassId} {σ : Nat → Nat} {π : Nat → String → Option Nat} {h h' : Heap}
  {Q : String → Cell → Prop}

/-- Creating an object does the same if new containers may be pending. -/
theorem Mirror.create (hv : Model.Versions m m' c)
    (hlate : ∀ p ∈ (m.decl c).properties, (m.prop p).instantiation ≠ some .eager)
    (hq : ∀ f kind, Assoc.get? f (Instance.fresh m' c) = some (.container kind []) →
      Q f (.container kind [])) (hm : Mirror Q c σ π h h') (e : ClassId) :
    Reaches Q c σ h (h.store (.object e (Instance.fresh m e)))
      (h'.store (.object e (Instance.fresh m' e))) := by
  by_cases he : e = c
  · subst he
    rw [Instance.fresh_eq_nil hlate]
    exact hm.store_pending (Instance.allEmpty_fresh m' e) hq
  · rw [Instance.fresh_of_ne hv he]
    exact hm.store_object (Instance.allEmpty_fresh m e) e

theorem isNew_of_fresh (hv : Model.Versions m m' c) (hleave : m.LeavesAlike m') {f : String}
    {kind : ContainerKind} (hf : Assoc.get? f (Instance.fresh m' c) = some (.container kind [])) :
    IsNew m c f (.container kind []) := by
  obtain ⟨p, hp, he, hpe⟩ := Instance.mem_fresh (Assoc.mem_of_get? hf)
  rw [hv.decl_eq] at hp
  obtain ⟨rfl, hk⟩ := Prod.mk.inj hpe
  refine ⟨p, hp, (hv.field_eq p).symm, fun hb => ?_, kind,
    (hk.trans (hv.newContainer_eq p)).symm, rfl⟩
  cases he.symm.trans ((hleave c p hp).mpr hb)

end Heap
end Enfold
