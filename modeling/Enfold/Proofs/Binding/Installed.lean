import Enfold.Proofs.Binding.Calls

/-! # Fields that are left to the caller

Where containers are left to the caller, a field of an object has a value from the first time that
one is installed in it, and nothing else gives it one. Until then a call for its items returns
nothing and appending fails. From then on both do what they do where containers are made at the
first use: there the field had a container of its own before, but no one is left with it.
-/

namespace Enfold

/-! ### What no call but installing changes -/

/-- A field keeps its value, or it has an element, which may have changed. -/
def KeepsValue (o o' : Option Datum) : Prop :=
  o' = o ∨ ∃ e e', o = some (.element e) ∧ o' = some (.element e')

theorem KeepsValue.isSome_eq {o o' : Option Datum} (h : KeepsValue o o') :
    o'.isSome = o.isSome := by
  rcases h with rfl | ⟨e, e', rfl, rfl⟩ <;> rfl

theorem KeepsValue.trans {o o' o'' : Option Datum} (h : KeepsValue o o') (h' : KeepsValue o' o'') :
    KeepsValue o o'' := by
  rcases h with rfl | ⟨e, e', rfl, rfl⟩
  · exact h'
  · rcases h' with rfl | ⟨e₁, e'', -, rfl⟩
    · exact Or.inr ⟨e, e', rfl, rfl⟩
    · exact Or.inr ⟨e, e'', rfl, rfl⟩

/-- Cells stay of their class, and those of one class keep their values. -/
inductive Cell.Keeps (c : ClassId) : Cell → Cell → Prop where
  | container (kind kind' : ContainerKind) (xs xs' : List Datum) :
      Keeps c (.container kind xs) (.container kind' xs')
  | object (d : ClassId) {vs vs' : Fields}
      (h : d = c → ∀ f, KeepsValue (Assoc.get? f vs) (Assoc.get? f vs')) :
      Keeps c (.object d vs) (.object d vs')

theorem Cell.Keeps.refl (c : ClassId) (cell : Cell) : cell.Keeps c cell := by
  cases cell with
  | container kind xs => exact .container kind kind xs xs
  | object d vs => exact .object d fun _ _ => Or.inl rfl

theorem Cell.Keeps.trans {c : ClassId} {x y z : Cell} (h : x.Keeps c y) (h' : y.Keeps c z) :
    x.Keeps c z := by
  cases h with
  | container =>
    cases h' with
    | container => exact .container ..
  | object d hf =>
    cases h' with
    | object _ hf' => exact .object d fun hd f => (hf hd f).trans (hf' hd f)

namespace Heap

variable {m : Model} {c : ClassId} {h h₁ h₂ : Heap} {d v : Datum} {field : Option String}
  {i n : Nat} {cell cell' : Cell} {t : Heap}

def Keeps (c : ClassId) (h h₁ : Heap) : Prop :=
  ∀ i cell, h.cell? i = some cell → ∃ cell', h₁.cell? i = some cell' ∧ cell.Keeps c cell'

theorem Keeps.of_eq (hold : ∀ i < h.cells.size, h₁.cell? i = h.cell? i) : Keeps c h h₁ :=
  fun _ cell hi => ⟨cell, (hold _ (lt_of_cell? hi)).trans hi, .refl c cell⟩

theorem Keeps.refl (c : ClassId) (h : Heap) : Keeps c h h := .of_eq fun _ _ => rfl

theorem Keeps.trans (hk : Keeps c h h₁) (hk' : Keeps c h₁ h₂) : Keeps c h h₂ := by
  intro i cell hi
  obtain ⟨y, hy, hc⟩ := hk i cell hi
  obtain ⟨z, hz, hc'⟩ := hk' i y hy
  exact ⟨z, hz, hc.trans hc'⟩

theorem keeps_setCell (hi : h.cell? i = some cell) (hc : cell.Keeps c cell') :
    Keeps c h (h.setCell i cell') := by
  intro j x hj
  by_cases hji : j = i
  · subst hji
    obtain rfl := Option.some.inj (hi.symm.trans hj)
    exact ⟨cell', cell?_setCell_self (lt_of_cell? hi), hc⟩
  · exact ⟨x, by rwa [cell?_setCell_of_ne (Ne.symm hji)], .refl c x⟩

theorem keeps_allocate (cell : Cell) : Keeps c h (h.allocate cell).1 :=
  .of_eq fun _ hi => cell?_allocate_of_lt hi

theorem keeps_store_object {l : Fields} (hl : AllEmpty l) (e : ClassId) :
    Keeps c h (h.store (.object e l)).1 := by
  obtain ⟨-, hold, -⟩ := storeFields_spec h hl
  simp only [store]
  exact (Keeps.of_eq hold).trans (keeps_allocate _)

theorem IsClosed.items (hc : h.IsClosed) (hn : (m.fields c).Nodup) {r : Heap × Datum}
    (hr : h.items m d field = .ok r) (hd : d.IsFlat h.cells.size) :
    r.1.IsClosed ∧ r.2.IsFlat r.1.cells.size := by
  have hitems := (hc.mirror (IsNew m c) c).items (.refl hn) (fun _ _ _ => Iff.rfl) hd field
  rw [d.relabel_id, hr] at hitems
  cases hitems with
  | ok hreach =>
    obtain ⟨σ, π, -, hm, hflat, -⟩ := hreach
    exact ⟨hm.closed, hflat⟩

theorem keeps_items (hb : ∀ p ∈ (m.decl c).properties, (m.prop p).instantiation = some .byCaller)
    (hc : h.IsClosed) {r : Heap × Datum} (hr : h.items m (.shared i) field = .ok r) :
    Keeps c h r.1 := by
  cases hi : h.cell? i with
  | none => simp [items, objectAt?, cellAt?, hi] at hr
  | some cell =>
    cases cell with
    | container =>
      rw [items_of_container hi] at hr
      cases hr
    | object e vs =>
      cases hw : Instance.wrappedField m e field with
      | error =>
        rw [items_of_error hi hw] at hr
        cases hr
      | ok p =>
        rcases items_cases hc hi hw with ⟨x, -, -, hx⟩ | ⟨-, -, hx⟩ | ⟨-, hne, kind, -, hx⟩
        · cases hx.symm.trans hr
          exact .refl c h
        · cases hx.symm.trans hr
          exact .refl c h
        · cases hx.symm.trans hr
          have hec : e ≠ c := by
            rintro rfl
            obtain ⟨q, hq, rfl⟩ := Instance.exists_mem_of_wrappedField hw
            exact hne (hb q hq)
          exact (keeps_allocate _).trans (keeps_setCell
            ((cell?_allocate_of_lt (lt_of_cell? hi)).trans hi) (.object e fun he => absurd he hec))

theorem keeps_pushTo (hn : (m.fields c).Nodup)
    (hb : ∀ p ∈ (m.decl c).properties, (m.prop p).instantiation = some .byCaller)
    (hc : h.IsClosed) (ht : h.pushTo m v n (.shared i) field = .ok t) : Keeps c h t := by
  induction n generalizing h i field with
  | zero => cases ht
  | succ n ih =>
    cases hi : h.cell? i with
    | none => simp [pushTo, cellAt?, hi] at ht
    | some cell =>
      cases cell with
      | container kind xs =>
        rw [pushTo_container hi] at ht
        cases ht
        exact keeps_setCell hi (.container ..)
      | object e vs =>
        cases hw : Instance.wrappedField m e field with
        | error =>
          rw [pushTo_error hi hw] at ht
          cases ht
        | ok p =>
          rw [pushTo_object hi hw] at ht
          obtain ⟨⟨h₁, inner⟩, hr, ht⟩ := exceptBind_eq_ok.mp ht
          obtain ⟨hc₁, hflat⟩ := hc.items hn hr (lt_of_cell? hi)
          have hkeep := keeps_items hb hc hr
          dsimp only at hc₁ hflat hkeep ht
          cases inner with
          | shared j => exact hkeep.trans (ih hc₁ ht)
          | scalar s =>
            dsimp only at ht
            split at ht
            · cases ht
            · cases ht
          | element y =>
            -- Only what a field holds can be an element, and it is put back where it was.
            rcases items_cases hc hi hw with ⟨x, hx, -, hr'⟩ | ⟨-, -, hr'⟩ | ⟨-, -, _, -, hr'⟩
            · cases hr'.symm.trans hr
              cases v with
              | element child =>
                obtain rfl := Except.ok.inj ((put_of_object hi _ _).symm.trans ht)
                refine keeps_setCell hi (.object e fun _ f => ?_)
                rw [Assoc.get?_put]
                split
                · next hf => exact Or.inr ⟨y, _, hf ▸ hx, rfl⟩
                · exact Or.inl rfl
              | scalar | shared | object | container => cases ht
            · cases hr'.symm.trans hr
            · cases hr'.symm.trans hr
          | object | container => exact hflat.elim

end Heap

namespace Caller

open Heap (Mirror Later IsNew)
open Model (Versions)

variable {m m' : Model} {c : ClassId} {s s' : Caller} {σ : Nat → Nat}
  {π : Nat → String → Option Nat} {call : Call} {calls : List Call} {i : Nat} {vs : Fields}

/-! ### Containers that are installed -/

def Installs (m : Model) (c : ClassId) (f : String) : Call → Prop
  | .setItems _ field => ∃ p, Instance.wrappedField m c field = .ok p ∧ p.field = f
  | _ => False

/-- The object that is called is one of the class, with these values. -/
structure Stands (c : ClassId) (s : Caller) (i : Nat) (vs : Fields) : Prop where
  object : s.objects[0]? = some (.shared i)
  cell : s.heap.cell? i = some (.object c vs)

theorem Stands.self_eq (hs : Stands c s i vs) : s.self = .shared i := by
  simp [self, datum, hs.object]

theorem keeps_next (hn : (m.fields c).Nodup)
    (hb : ∀ p ∈ (m.decl c).properties, (m.prop p).instantiation = some .byCaller)
    (hc : s.heap.IsClosed) (hs : Stands c s i vs) (hcall : ∀ x field, call ≠ .setItems x field) :
    Heap.Keeps c s.heap (s.next m call).heap := by
  unfold next
  cases hr : s.step m call with
  | error => exact .refl c _
  | ok r =>
    cases call with
    | make kind xs =>
      cases hr
      exact Heap.keeps_allocate _
    | create cls =>
      cases hr
      exact Heap.keeps_store_object (Instance.allEmpty_fresh m cls) cls
    | items field =>
      obtain ⟨r', hr', rfl⟩ := exceptMap_eq_ok.mp hr
      rw [hs.self_eq] at hr'
      exact Heap.keeps_items hb hc hr'
    | setItems x field => exact absurd rfl (hcall x field)
    | append x field =>
      obtain ⟨t, ht, rfl⟩ := exceptMap_eq_ok.mp hr
      rw [hs.self_eq, Heap.appendTo_of_object hs.cell] at ht
      exact Heap.keeps_pushTo hn hb hc ht

theorem objects_next (m : Model) (s : Caller) (call : Call) :
    s.objects <+: (s.next m call).objects := by
  unfold next
  cases hr : s.step m call with
  | error => exact List.prefix_rfl
  | ok r =>
    cases call with
    | make => cases hr; exact List.prefix_rfl
    | create => cases hr; exact List.prefix_append ..
    | items => obtain ⟨_, -, rfl⟩ := exceptMap_eq_ok.mp hr; exact List.prefix_rfl
    | setItems => obtain ⟨_, -, rfl⟩ := exceptMap_eq_ok.mp hr; exact List.prefix_rfl
    | append => obtain ⟨_, -, rfl⟩ := exceptMap_eq_ok.mp hr; exact List.prefix_rfl

theorem next_setItems (hs : Stands c s i vs) (x : Operand) (field : Option String) :
    s.next m (.setItems x field) = match Instance.wrappedField m c field with
      | .ok p => { s with
          heap := s.heap.setCell i (.object c (Assoc.put p.field (s.datum x) vs)) }
      | .error _ => s := by
  have hset : s.heap.setItems m s.self (s.datum x) field =
      (Instance.wrappedField m c field).map fun p =>
        s.heap.setCell i (.object c (Assoc.put p.field (s.datum x) vs)) := by
    rw [hs.self_eq, Heap.setItems_of_object hs.cell]
    cases Instance.wrappedField m c field with
    | error => rfl
    | ok p => exact Heap.put_of_object hs.cell ..
  simp only [next, step, hset]
  cases Instance.wrappedField m c field <;> rfl

/-- The object that is called has what is installed, and else what it had. -/
theorem Stands.next (hn : (m.fields c).Nodup)
    (hb : ∀ p ∈ (m.decl c).properties, (m.prop p).instantiation = some .byCaller)
    (hc : s.heap.IsClosed) (hs : Stands c s i vs) (call : Call) :
    ∃ vs', Stands c (s.next m call) i vs' ∧ ∀ f,
      (∃ x field, call = .setItems x field ∧ Installs m c f call ∧
        Assoc.get? f vs' = some (s.datum x)) ∨
      ¬Installs m c f call ∧ KeepsValue (Assoc.get? f vs) (Assoc.get? f vs') := by
  have hobject : (s.next m call).objects[0]? = some (.shared i) := by
    obtain ⟨l, hl⟩ := objects_next m s call
    have hlt := (List.getElem?_eq_some_iff.mp hs.object).1
    rw [← hl, List.getElem?_append_left hlt, hs.object]
  have other (hcall : ∀ x field, call ≠ .setItems x field) (f : String) :
      ¬Installs m c f call := by
    cases call with
    | setItems x field => exact absurd rfl (hcall x field)
    | make | create | items | append => exact id
  by_cases hcall : ∃ x field, call = .setItems x field
  · obtain ⟨x, field, rfl⟩ := hcall
    have hnext := next_setItems (m := m) hs x field
    cases hw : Instance.wrappedField m c field with
    | error e =>
      rw [hw] at hnext
      refine ⟨vs, ⟨hobject, by rw [hnext]; exact hs.cell⟩, fun f => Or.inr ⟨?_, Or.inl rfl⟩⟩
      rintro ⟨p, hp, -⟩
      cases hw.symm.trans hp
    | ok p =>
      rw [hw] at hnext
      refine ⟨Assoc.put p.field (s.datum x) vs, ⟨hobject, ?_⟩, fun f => ?_⟩
      · rw [hnext]
        exact Heap.cell?_setCell_self (Heap.lt_of_cell? hs.cell)
      · rw [Assoc.get?_put]
        by_cases hf : p.field = f
        · exact Or.inl ⟨x, field, rfl, ⟨p, hw, hf⟩, if_pos hf⟩
        · refine Or.inr ⟨?_, Or.inl (if_neg hf)⟩
          rintro ⟨q, hq, hqf⟩
          cases hw.symm.trans hq
          exact hf hqf
  · have hcall : ∀ x field, call ≠ .setItems x field := fun x field he => hcall ⟨x, field, he⟩
    obtain ⟨cell', hcell', hkeep⟩ := keeps_next hn hb hc hs hcall i _ hs.cell
    cases hkeep with
    | object _ hf =>
      exact ⟨_, ⟨hobject, hcell'⟩, fun f => Or.inr ⟨other hcall f, hf rfl f⟩⟩

theorem Stands.unique {j : Nat} {ws : Fields} (hs : Stands c s i vs) (hs' : Stands c s j ws) :
    j = i ∧ ws = vs := by
  obtain rfl := Datum.shared.inj (Option.some.inj (hs'.object.symm.trans hs.object))
  exact ⟨rfl, (Cell.object.inj (Option.some.inj (hs'.cell.symm.trans hs.cell))).2⟩

theorem start_stands (h : Instance.fresh m c = []) : Stands c (start m c) 0 [] := by
  constructor <;> simp [start, h, Heap.store, Heap.storeFields, Heap.allocate, Heap.cell?]

theorem not_eager (hb : ∀ p ∈ (m.decl c).properties, (m.prop p).instantiation = some .byCaller) :
    ∀ p ∈ (m.decl c).properties, (m.prop p).instantiation ≠ some .eager := by
  intro p hp
  simp [hb p hp]

theorem after_stands (hn : (m.fields c).Nodup)
    (hb : ∀ p ∈ (m.decl c).properties, (m.prop p).instantiation = some .byCaller)
    (calls : List Call) : ∃ i vs, Stands c (after m c calls) i vs ∧
      ∀ f, (Assoc.get? f vs).isSome ↔ ∃ call ∈ calls, Installs m c f call := by
  induction calls using List.reverseRecOn with
  | nil =>
    refine ⟨0, [], start_stands (Instance.fresh_eq_nil (not_eager hb)), fun f => ?_⟩
    simp [Assoc.get?]
  | append_singleton calls call ih =>
    obtain ⟨i, vs, hs, hf⟩ := ih
    rw [after_concat]
    obtain ⟨vs', hs', hf'⟩ := hs.next hn hb (isClosed_after hn (not_eager hb) calls) call
    refine ⟨i, vs', hs', fun f => ?_⟩
    simp only [List.mem_append, List.mem_singleton, or_and_right, exists_or, exists_eq_left, ← hf f]
    rcases hf' f with ⟨x, field, -, hinst, hx⟩ | ⟨hinst, hkeep⟩
    · simp [hx, hinst]
    · simp [hkeep.isSome_eq, hinst]

/-- Before anything is installed nothing is returned or appended. -/
theorem step_of_missing {field : Option String} {p : Property} (hs : Stands c s i vs)
    (hw : Instance.wrappedField m c field = .ok p) (hb : p.instantiation = some .byCaller)
    (hx : Assoc.get? p.field vs = none) :
    s.step m (.items field) = .ok ({ s with given := s.given ++ [.null] }, .null) ∧
      ∀ x, s.step m (.append x field) = .error (.noContainer (m.qualifiedName c) p.field) := by
  have hitems := Heap.items_of_byCaller hs.cell hw hx hb
  rw [← hs.self_eq] at hitems
  refine ⟨?_, fun x => ?_⟩
  · simp only [step, hitems]
    rfl
  · have happend : s.heap.appendTo m s.self (s.datum x) field =
        .error (.noContainer (m.qualifiedName c) p.field) := by
      rw [hs.self_eq] at hitems ⊢
      rw [Heap.appendTo_of_object hs.cell, Heap.pushTo_object hs.cell hw, hitems]
      rfl
    simp only [step, happend]
    rfl

end Caller
end Enfold
