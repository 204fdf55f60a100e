import Mathlib.Data.Fintype.Pigeonhole
import Enfold.Binding.Heap
import Enfold.Proofs.Assoc
import Enfold.Proofs.Binding.Container

/-! # Appending that is passed on

An object passes what is appended to it on to its own field, which may hold an object again. There
are no more objects to go through than cells, unless the way runs in a circle, so more steps than
that never lead elsewhere.
-/

namespace Enfold

/-- A datum without parts of its own, or one of the first `n` cells. -/
def Datum.IsFlat (n : Nat) : Datum → Prop
  | .scalar _ | .element _ => True
  | .shared i => i < n
  | .object .. | .container .. => False

def Cell.IsFlat (n : Nat) : Cell → Prop
  | .container _ xs => ∀ x ∈ xs, x.IsFlat n
  | .object _ vs => ∀ f x, Assoc.get? f vs = some x → x.IsFlat n

namespace Heap

variable {m : Model} {h : Heap} {v : Datum} {i j k n : Nat}

/-- No cell leads out of the heap. -/
def IsClosed (h : Heap) : Prop := ∀ {i cell}, h.cell? i = some cell → cell.IsFlat h.cells.size

theorem setCell_self {cell : Cell} (hc : h.cell? i = some cell) : h.setCell i cell = h := by
  obtain ⟨cells⟩ := h
  obtain ⟨hi, hc⟩ := Array.getElem?_eq_some_iff.mp hc
  unfold setCell
  dsimp only at hc ⊢
  rw [← hc, Array.setIfInBounds_def, dif_pos hi, Array.set_getElem_self]

theorem store_of_isFlat {d : Datum} (hd : d.IsFlat n) : h.store d = (h, d) := by
  cases d with
  | scalar | element | shared => simp [store]
  | object | container => exact hd.elim

variable {c : ClassId} {vs : Fields} {field : Option String} {p : Property} {d : Datum}

/-! ### What a call for the items of a field does -/

theorem items_of_get? (hi : h.cell? i = some (.object c vs))
    (hp : Instance.wrappedField m c field = .ok p) (hd : Assoc.get? p.field vs = some d)
    (hflat : d.IsFlat n) : h.items m (.shared i) field = .ok (h, d) := by
  simp [items, objectAt?, cellAt?, hi, hp, Instance.items, hd, store_of_isFlat hflat,
    Assoc.contains, Assoc.put_of_get? hd, setCell_self hi, bind, Except.bind, pure, Except.pure]

theorem items_of_byCaller (hi : h.cell? i = some (.object c vs))
    (hp : Instance.wrappedField m c field = .ok p) (hd : Assoc.get? p.field vs = none)
    (hb : p.instantiation = some .byCaller) : h.items m (.shared i) field = .ok (h, .null) := by
  simp [items, objectAt?, cellAt?, hi, hp, Instance.items, hd, hb, store, Datum.null,
    Assoc.contains, setCell_self hi, bind, Except.bind, pure, Except.pure]

theorem items_of_none {kind : ContainerKind} (hi : h.cell? i = some (.object c vs))
    (hp : Instance.wrappedField m c field = .ok p) (hd : Assoc.get? p.field vs = none)
    (hb : p.instantiation ≠ some .byCaller) (hk : Instance.newContainer p = .container kind []) :
    h.items m (.shared i) field = .ok ((h.allocate (.container kind [])).1.setCell i
      (.object c (Assoc.put p.field (.shared h.cells.size) vs)), .shared h.cells.size) := by
  simp [items, objectAt?, cellAt?, hi, hp, Instance.items, hd, hb, hk, store, storeItems, allocate,
    Assoc.contains, Assoc.get?_put_self, Assoc.put_put_self, bind, Except.bind, pure, Except.pure]

theorem items_of_error {e : BindingError} (hi : h.cell? i = some (.object c vs))
    (hp : Instance.wrappedField m c field = .error e) :
    h.items m (.shared i) field = .error e := by
  simp [items, objectAt?, cellAt?, hi, hp, bind, Except.bind]

theorem items_of_container {kind : ContainerKind} {xs : List Datum}
    (hi : h.cell? i = some (.container kind xs)) :
    h.items m (.shared i) field = .error (.misuse .noSuchAttribute) := by
  simp [items, objectAt?, cellAt?, hi]

theorem put_of_object (hi : h.cell? i = some (.object c vs)) (f : String) (x : Datum) :
    h.put (.shared i) f x = .ok (h.setCell i (.object c (Assoc.put f x vs))) := by
  simp [put, objectAt?, cellAt?, hi]

theorem put_of_container {kind : ContainerKind} {xs : List Datum}
    (hi : h.cell? i = some (.container kind xs)) (f : String) (x : Datum) :
    h.put (.shared i) f x = .error (.misuse .noSuchAttribute) := by
  simp [put, objectAt?, cellAt?, hi]

theorem setItems_of_object (hi : h.cell? i = some (.object c vs)) (field : Option String)
    (x : Datum) : h.setItems m (.shared i) x field =
      Instance.wrappedField m c field >>= fun p => h.put (.shared i) p.field x := by
  simp only [setItems, objectAt?, cellAt?, hi, Option.map_some, Instance.setItems]
  cases Instance.wrappedField m c field with
  | error e => rfl
  | ok p => exact (put_of_object hi p.field x).symm

theorem setItems_of_container {kind : ContainerKind} {xs : List Datum}
    (hi : h.cell? i = some (.container kind xs)) (field : Option String) (x : Datum) :
    h.setItems m (.shared i) x field = .error (.misuse .noSuchAttribute) := by
  simp [setItems, objectAt?, cellAt?, hi]

theorem appendTo_of_object (hi : h.cell? i = some (.object c vs)) (field : Option String) :
    h.appendTo m (.shared i) v field = h.pushTo m v (h.cells.size + 2) (.shared i) field := by
  simp [appendTo, cellAt?, hi]

theorem appendTo_of_container {kind : ContainerKind} {xs : List Datum}
    (hi : h.cell? i = some (.container kind xs)) (field : Option String) :
    h.appendTo m (.shared i) v field = .error (.misuse .wrongKind) := by
  simp [appendTo, cellAt?, hi]

theorem cell?_allocate_self (h : Heap) (cell : Cell) :
    (h.allocate cell).1.cell? h.cells.size = some cell := by
  simp [allocate, cell?]

theorem cell?_allocate_of_lt {cell : Cell} (hi : i < h.cells.size) :
    (h.allocate cell).1.cell? i = h.cell? i := by
  simp [allocate, cell?, Array.getElem?_push, Nat.ne_of_lt hi]

theorem cell?_setCell_of_ne {cell : Cell} (hij : i ≠ j) :
    (h.setCell i cell).cell? j = h.cell? j := by
  simp [setCell, cell?, hij]

theorem cell?_setCell_self {cell : Cell} (hi : i < h.cells.size) :
    (h.setCell i cell).cell? i = some cell := by
  simp [setCell, cell?, hi]

@[simp] theorem size_setCell (cell : Cell) : (h.setCell i cell).cells.size = h.cells.size := by
  simp [setCell]

@[simp] theorem size_allocate (cell : Cell) :
    (h.allocate cell).1.cells.size = h.cells.size + 1 := by
  simp [allocate]

theorem isFlat_allocate (h : Heap) (cell : Cell) :
    (h.allocate cell).2.IsFlat (h.allocate cell).1.cells.size := by
  rw [size_allocate]
  exact Nat.lt_succ_self _

theorem lt_of_cell? {cell : Cell} (hi : h.cell? i = some cell) : i < h.cells.size :=
  (Array.getElem?_eq_some_iff.mp hi).1

theorem exists_cell? (hi : i < h.cells.size) : ∃ cell, h.cell? i = some cell :=
  ⟨h.cells[i], Array.getElem?_eq_getElem hi⟩

/-- A field has its items, leaves them to the caller, or makes them. -/
theorem items_cases (hc : h.IsClosed) (hi : h.cell? i = some (.object c vs))
    (hp : Instance.wrappedField m c field = .ok p) :
    (∃ d, Assoc.get? p.field vs = some d ∧ d.IsFlat h.cells.size ∧
      h.items m (.shared i) field = .ok (h, d)) ∨
    (Assoc.get? p.field vs = none ∧ p.instantiation = some .byCaller ∧
      h.items m (.shared i) field = .ok (h, .null)) ∨
    (Assoc.get? p.field vs = none ∧ p.instantiation ≠ some .byCaller ∧
      ∃ kind, Instance.newContainer p = .container kind [] ∧
        h.items m (.shared i) field = .ok ((h.allocate (.container kind [])).1.setCell i
          (.object c (Assoc.put p.field (.shared h.cells.size) vs)), .shared h.cells.size)) := by
  cases hd : Assoc.get? p.field vs with
  | some d =>
    have hflat : d.IsFlat h.cells.size := hc hi _ _ hd
    exact Or.inl ⟨d, rfl, hflat, items_of_get? hi hp hd hflat⟩
  | none =>
    by_cases hb : p.instantiation = some .byCaller
    · exact Or.inr (Or.inl ⟨rfl, hb, items_of_byCaller hi hp hd hb⟩)
    · obtain ⟨kind, hk⟩ := Instance.exists_newContainer p
      exact Or.inr (Or.inr ⟨rfl, hb, kind, hk, items_of_none hi hp hd hb hk⟩)

theorem cell?_made (hi : h.cell? i = some (.object c vs)) (kind : ContainerKind) (vs' : Fields) :
    ((h.allocate (.container kind [])).1.setCell i (.object c vs')).cell? h.cells.size =
      some (.container kind []) := by
  rw [cell?_setCell_of_ne (Nat.ne_of_lt (lt_of_cell? hi)), cell?_allocate_self]

/-! ### The way through objects -/

/-- The cell that an object passes on to from a field. -/
def next? (m : Model) (h : Heap) (field : Option String) (i : Nat) : Option Nat :=
  match h.cell? i with
  | some (.object c vs) =>
    match Instance.wrappedField m c field with
    | .ok p => match Assoc.get? p.field vs with
      | some (.shared j) => some j
      | _ => none
    | .error _ => none
  | _ => none

theorem next?_eq_some : next? m h field i = some j ↔ ∃ c vs p, h.cell? i = some (.object c vs) ∧
    Instance.wrappedField m c field = .ok p ∧ Assoc.get? p.field vs = some (.shared j) := by
  constructor
  · intro hj
    unfold next? at hj
    split at hj
    · next c vs hi =>
      split at hj
      · next p hp =>
        split at hj
        · next j' hx => cases hj; exact ⟨c, vs, p, hi, hp, hx⟩
        · cases hj
      · cases hj
    · cases hj
  · rintro ⟨c, vs, p, hi, hp, hx⟩
    simp [next?, hi, hp, hx]

theorem pushTo_container {kind : ContainerKind} {xs : List Datum}
    (hi : h.cell? i = some (.container kind xs)) (n : Nat) (field : Option String) :
    pushTo m v (n + 1) h (.shared i) field =
      .ok (h.setCell i (.container kind (xs ++ [v]))) := by
  simp [pushTo, cellAt?, hi]

theorem pushTo_object (hi : h.cell? i = some (.object c vs))
    (hp : Instance.wrappedField m c field = .ok p) (n : Nat) :
    pushTo m v (n + 1) h (.shared i) field = h.items m (.shared i) field >>= fun r =>
      match r.2 with
      | .shared j => pushTo m v n r.1 (.shared j) none
      | inner =>
        if inner.isNull then .error (.noContainer (m.qualifiedName c) p.field)
        else Instance.push m v inner >>= fun x => r.1.put (.shared i) p.field x := by
  simp only [pushTo.eq_2, cellAt?, hi, hp, bind, Except.bind, Option.map_some]
  cases h.items m (.shared i) field with
  | error e => rfl
  | ok r =>
    obtain ⟨h₁, inner⟩ := r
    cases inner <;> rfl

theorem pushTo_error {e : BindingError} (hi : h.cell? i = some (.object c vs))
    (hp : Instance.wrappedField m c field = .error e) (n : Nat) :
    pushTo m v (n + 1) h (.shared i) field = .error e := by
  simp only [pushTo.eq_2, cellAt?, hi, hp, bind, Except.bind, Option.map_some]

theorem pushTo_congr (hc : h.IsClosed) (n n' : Nat)
    (hnext : ∀ j, next? m h field i = some j →
      pushTo m v (n + 1) h (.shared j) none = pushTo m v (n' + 1) h (.shared j) none) :
    pushTo m v (n + 2) h (.shared i) field = pushTo m v (n' + 2) h (.shared i) field := by
  cases hi : h.cell? i with
  | none => simp [pushTo, cellAt?, hi]
  | some cell =>
    cases cell with
    | container kind xs => rw [pushTo_container hi, pushTo_container hi]
    | object c vs =>
      cases hp : Instance.wrappedField m c field with
      | error e => rw [pushTo_error hi hp, pushTo_error hi hp]
      | ok p =>
        rw [pushTo_object hi hp, pushTo_object hi hp]
        rcases items_cases hc hi hp with ⟨d, hd, hflat, hr⟩ | ⟨-, -, hr⟩ | ⟨-, -, kind, -, hr⟩
        · rw [hr]
          cases d with
          | shared j => exact hnext j (next?_eq_some.mpr ⟨c, vs, p, hi, hp, hd⟩)
          | scalar | element => rfl
          | object | container => exact hflat.elim
        · rw [hr]
          rfl
        · have hpush (n : Nat) := pushTo_container (m := m) (v := v)
            (cell?_made hi kind (Assoc.put p.field (.shared h.cells.size) vs)) n none
          rw [hr]
          exact (hpush n).trans (hpush n').symm

theorem pushTo_of_next (hc : h.IsClosed) (hj : next? m h field i = some j) (n : Nat) :
    pushTo m v (n + 1) h (.shared i) field = pushTo m v n h (.shared j) none := by
  obtain ⟨c, vs, p, hi, hp, hd⟩ := next?_eq_some.mp hj
  have hitems := items_of_get? hi hp hd (hc hi _ _ hd)
  simp [pushTo.eq_2, cellAt?, hi, hp, hitems, bind, Except.bind]

def after? (m : Model) (h : Heap) (i : Nat) : Nat → Option Nat
  | 0 => some i
  | k + 1 => (after? m h i k).bind (next? m h none)

theorem after?_add (i a k : Nat) :
    after? m h i (a + k) = (after? m h i a).bind fun j => after? m h j k := by
  induction k with
  | zero => simp [after?]
  | succ k ih => rw [Nat.add_succ, after?, ih, Option.bind_assoc]; rfl

theorem after?_isSome_of_le {a b : Nat} (hab : a ≤ b) (hb : (after? m h i b).isSome) :
    (after? m h i a).isSome := by
  obtain ⟨k, rfl⟩ := Nat.exists_eq_add_of_le hab
  rw [after?_add] at hb
  exact Option.isSome_of_isSome_bind hb

theorem lt_of_after? (hc : h.IsClosed) (hi : i < h.cells.size) (hj : after? m h i k = some j) :
    j < h.cells.size := by
  cases k with
  | zero => cases hj; exact hi
  | succ k =>
    obtain ⟨i', -, hj⟩ := Option.bind_eq_some_iff.mp hj
    obtain ⟨c, vs, p, hi', -, hd⟩ := next?_eq_some.mp hj
    exact hc hi' _ _ hd

theorem pushTo_after (hc : h.IsClosed) (hj : after? m h i k = some j) (n : Nat) :
    pushTo m v (n + k) h (.shared i) none = pushTo m v n h (.shared j) none := by
  induction k generalizing j n with
  | zero => cases hj; rfl
  | succ k ih =>
    obtain ⟨i', hi', hj⟩ := Option.bind_eq_some_iff.mp hj
    rw [← pushTo_of_next hc hj n, ← ih hi', Nat.add_right_comm, Nat.add_assoc]

theorem after?_isSome_of_circle {a b : Nat} (hab : a < b)
    (heq : after? m h i a = after? m h i b) (hb : (after? m h i b).isSome) (k : Nat) :
    (after? m h i k).isSome := by
  induction k using Nat.strongRecOn with
  | ind k ih =>
    by_cases hk : k ≤ b
    · exact after?_isSome_of_le hk hb
    · obtain ⟨t, rfl⟩ := Nat.exists_eq_add_of_le (Nat.le_of_not_le hk)
      rw [after?_add, ← heq, ← after?_add]
      exact ih _ (by omega)

/-- A way of as many steps as there are cells comes to some cell again. -/
theorem exists_circle (hc : h.IsClosed) (hi : i < h.cells.size)
    (hsome : (after? m h i h.cells.size).isSome) : ∃ a b, a < b ∧ b ≤ h.cells.size ∧
      after? m h i a = after? m h i b := by
  have hreach (t : Fin (h.cells.size + 1)) : ∃ j : Fin h.cells.size, after? m h i t = some j.1 := by
    obtain ⟨j, hj⟩ := Option.isSome_iff_exists.mp
      (after?_isSome_of_le (Nat.le_of_lt_succ t.2) hsome)
    exact ⟨⟨j, lt_of_after? hc hi hj⟩, hj⟩
  choose f hf using hreach
  obtain ⟨a, b, hab, heq⟩ := Fintype.exists_ne_map_eq_of_card_lt f (by simp)
  have hsame : after? m h i a = after? m h i b := by rw [hf, hf, heq]
  rcases Nat.lt_or_gt_of_ne (Fin.val_ne_of_ne hab) with hlt | hlt
  · exact ⟨a, b, hlt, Nat.le_of_lt_succ b.2, hsame⟩
  · exact ⟨b, a, hlt, Nat.le_of_lt_succ a.2, hsame.symm⟩

theorem pushTo_none_of_le (hc : h.IsClosed) (hi : i < h.cells.size)
    (hn : h.cells.size + 1 ≤ n) : pushTo m v n h (.shared i) none =
      pushTo m v (h.cells.size + 1) h (.shared i) none := by
  cases hend : after? m h i h.cells.size with
  | some j =>
    -- The way never ends, so the steps run out however many there are.
    obtain ⟨a, b, hab, hb, heq⟩ := exists_circle hc hi (by rw [hend]; rfl)
    have hforever := after?_isSome_of_circle hab heq
      (after?_isSome_of_le hb (by rw [hend]; rfl))
    have herror (n : Nat) : pushTo m v n h (.shared i) none = .error (.misuse .wrongKind) := by
      obtain ⟨j, hj⟩ := Option.isSome_iff_exists.mp (hforever n)
      rw [← Nat.zero_add n, pushTo_after hc hj]
      rfl
    rw [herror, herror]
  | none =>
    -- The way ends at an object or a container that is reached within the steps of both.
    have hex : ∃ k, after? m h i k = none := ⟨_, hend⟩
    obtain ⟨k, hk⟩ : ∃ k, Nat.find hex = k + 1 := by
      refine Nat.exists_eq_succ_of_ne_zero fun h0 => ?_
      have := Nat.find_spec hex
      rw [h0] at this
      cases this
    have hle : k + 1 ≤ h.cells.size := hk ▸ Nat.find_min' hex hend
    obtain ⟨j, hj⟩ := Option.ne_none_iff_exists'.mp
      (Nat.find_min hex (m := k) (hk ▸ Nat.lt_succ_self k))
    have hlast : next? m h none j = none := by
      have := Nat.find_spec hex
      rw [hk, after?, hj] at this
      exact this
    have hstop (n n' : Nat) : pushTo m v (n + 2) h (.shared j) none =
        pushTo m v (n' + 2) h (.shared j) none :=
      pushTo_congr hc n n' fun _ hnext => by rw [hlast] at hnext; cases hnext
    obtain ⟨r, hr⟩ : ∃ r, n = r + 2 + k := ⟨n - 2 - k, by omega⟩
    obtain ⟨s, hs⟩ : ∃ s, h.cells.size + 1 = s + 2 + k := ⟨h.cells.size - 1 - k, by omega⟩
    rw [hr, hs, pushTo_after hc hj, pushTo_after hc hj]
    exact hstop r s

/-- However many steps are allowed beyond the number of cells, appending does the same. -/
theorem pushTo_of_le (hc : h.IsClosed) (hd : d.IsFlat h.cells.size)
    (hn : h.cells.size + 2 ≤ n) :
    pushTo m v n h d field = pushTo m v (h.cells.size + 2) h d field := by
  obtain ⟨r, rfl⟩ := Nat.exists_eq_add_of_le' hn
  cases d with
  | scalar | element => simp [pushTo, cellAt?]
  | object | container => exact hd.elim
  | shared i =>
    refine pushTo_congr hc (r + h.cells.size) h.cells.size fun j hj => ?_
    obtain ⟨c, vs, p, hi, -, hx⟩ := next?_eq_some.mp hj
    exact pushTo_none_of_le hc (hc hi _ _ hx) (by omega)

theorem items_eq_of_pushTo_error {e : BindingError} {r : Heap × Datum} (hc : h.IsClosed)
    (hi : h.cell? i = some (.object c vs)) (he : pushTo m v (n + 2) h (.shared i) field = .error e)
    (hr : h.items m (.shared i) field = .ok r) : r.1 = h := by
  cases hp : Instance.wrappedField m c field with
  | error e =>
    rw [items_of_error hi hp] at hr
    cases hr
  | ok p =>
    rw [pushTo_object hi hp, hr] at he
    rcases items_cases hc hi hp with ⟨d, -, -, hd⟩ | ⟨-, -, hd⟩ | ⟨-, -, kind, -, hd⟩
    · cases hd.symm.trans hr
      rfl
    · cases hd.symm.trans hr
      rfl
    · cases hd.symm.trans hr
      cases (pushTo_container (cell?_made hi kind _) n none).symm.trans he

end Heap
end Enfold
