import Enfold.Proofs.Binding.Passing

/-! # Heaps that mirror each other

A heap mirrors another one if it holds the same data in cells of other numbers. It may hold some
containers besides: one for a field of an object that has no value there in the other heap. No one
has been given such a container, so nothing but the field leads to it.
-/

namespace Enfold

def Datum.relabel (σ : Nat → Nat) : Datum → Datum
  | .shared i => .shared (σ i)
  | d => d

@[simp] theorem Datum.relabel_id (d : Datum) : d.relabel id = d := by cases d <;> rfl

theorem Datum.IsFlat.mono {d : Datum} {n n' : Nat} (h : d.IsFlat n) (hn : n ≤ n') :
    d.IsFlat n' := by
  cases d with
  | scalar | element => trivial
  | shared i => exact Nat.lt_of_lt_of_le h hn
  | object | container => exact h.elim

theorem Datum.relabel_congr {d : Datum} {n : Nat} {σ σ' : Nat → Nat} (h : d.IsFlat n)
    (hσ : ∀ i < n, σ' i = σ i) : d.relabel σ' = d.relabel σ := by
  cases d with
  | shared i => exact congrArg shared (hσ i h)
  | scalar | element | object | container => rfl

theorem Datum.relabel_update_self (σ : Nat → Nat) (n t : Nat) :
    (Datum.shared n).relabel (Function.update σ n t) = .shared t :=
  congrArg Datum.shared (Function.update_self n t σ)

theorem Cell.IsFlat.mono {cell : Cell} {n n' : Nat} (h : cell.IsFlat n) (hn : n ≤ n') :
    cell.IsFlat n' := by
  cases cell with
  | container => exact fun x hx => (h x hx).mono hn
  | object => exact fun f x hx => (h f x hx).mono hn

namespace Heap

/-- Two cells hold the same, but for pending values that the first one lacks. -/
inductive CellMirror (σ : Nat → Nat) (pend : String → Option Nat) : Cell → Cell → Prop where
  | container (kind : ContainerKind) (xs : List Datum) :
      CellMirror σ pend (.container kind xs) (.container kind (xs.map (Datum.relabel σ)))
  | object (d : ClassId) {vs vs' : Fields} (hf : ∀ f, Assoc.get? f vs' =
      match Assoc.get? f vs with
      | some x => some (x.relabel σ)
      | none => (pend f).map .shared) : CellMirror σ pend (.object d vs) (.object d vs')

/-- The second heap has the cells of the first under `σ`, and what is pending by `π`. -/
structure Mirror (Q : String → Cell → Prop) (c : ClassId) (σ : Nat → Nat)
    (π : Nat → String → Option Nat) (h h' : Heap) : Prop where
  closed : h.IsClosed
  lt : ∀ {i}, i < h.cells.size → σ i < h'.cells.size
  inj : ∀ {i j}, i < h.cells.size → j < h.cells.size → σ i = σ j → i = j
  cells : ∀ {i cell}, h.cell? i = some cell →
    ∃ cell', h'.cell? (σ i) = some cell' ∧ CellMirror σ (π i) cell cell'
  pending : ∀ {i f j}, π i f = some j → (∃ vs, h.cell? i = some (.object c vs)) ∧
    (∃ cell, h'.cell? j = some cell ∧ Q f cell) ∧ ∀ k < h.cells.size, σ k ≠ j
  apart : ∀ {i f i' f' j}, π i f = some j → π i' f' = some j → i = i' ∧ f = f'

theorem CellMirror.congr {σ σ' : Nat → Nat} {pend : String → Option Nat} {cell cell' : Cell}
    {n : Nat} (h : CellMirror σ pend cell cell') (hflat : cell.IsFlat n)
    (hσ : ∀ i < n, σ' i = σ i) : CellMirror σ' pend cell cell' := by
  cases h with
  | container kind xs =>
    have hmap : xs.map (Datum.relabel σ) = xs.map (Datum.relabel σ') :=
      List.map_congr_left fun x hx => (Datum.relabel_congr (hflat x hx) hσ).symm
    rw [hmap]
    exact .container kind xs
  | object d hf =>
    refine .object d fun f => ?_
    rw [hf f]
    split
    · next x hx => rw [Datum.relabel_congr (hflat f x hx) hσ]
    · rfl

theorem CellMirror.refl (cell : Cell) : CellMirror id (fun _ => none) cell cell := by
  cases cell with
  | container kind xs =>
    have hself : CellMirror id (fun _ => none) (.container kind xs)
        (.container kind (xs.map (Datum.relabel id))) := .container kind xs
    simpa [funext Datum.relabel_id] using hself
  | object d vs =>
    refine .object d fun f => ?_
    cases Assoc.get? f vs <;> simp

theorem CellMirror.adopt {σ : Nat → Nat} {pend : String → Option Nat} {d : ClassId} {vs : Fields}
    {cell' : Cell} {f : String} {n : Nat} (h : CellMirror σ pend (.object d vs) cell')
    (hf : Assoc.get? f vs = none) (hn : pend f = some (σ n)) :
    CellMirror σ (Function.update pend f none) (.object d (Assoc.put f (.shared n) vs)) cell' := by
  cases h with
  | object _ hfields =>
    refine .object d fun g => ?_
    rw [hfields g, Assoc.get?_put]
    by_cases hg : f = g
    · subst hg
      simp [hf, hn, Datum.relabel]
    · rw [if_neg hg, Function.update_of_ne (Ne.symm hg)]

theorem CellMirror.reserve {σ : Nat → Nat} {pend : String → Option Nat} {d : ClassId}
    {vs vs' : Fields} {f : String} (h : CellMirror σ pend (.object d vs) (.object d vs'))
    (hf : Assoc.get? f vs = none) (n : Nat) :
    CellMirror σ (Function.update pend f (some n)) (.object d vs)
      (.object d (Assoc.put f (.shared n) vs')) := by
  cases h with
  | object _ hfields =>
    refine .object d fun g => ?_
    rw [Assoc.get?_put]
    by_cases hg : f = g
    · subst hg
      simp [hf]
    · rw [if_neg hg, Function.update_of_ne (Ne.symm hg)]
      exact hfields g

variable {Q : String → Cell → Prop} {c : ClassId} {σ : Nat → Nat} {π : Nat → String → Option Nat}
  {h h' : Heap} {i j : Nat} {cell cell' : Cell}

/-- A heap mirrors itself. -/
theorem IsClosed.mirror (hc : h.IsClosed) (Q : String → Cell → Prop) (c : ClassId) :
    Mirror Q c id (fun _ _ => none) h h where
  closed := hc
  lt hi := hi
  inj _ _ hij := hij
  cells {_ cell} hi := ⟨cell, hi, .refl cell⟩
  pending := nofun
  apart := nofun

theorem isClosed_empty : IsClosed {} := fun {i cell} hi => by cases hi

namespace Mirror

theorem lt_of_pending (hm : Mirror Q c σ π h h') {f : String} (hj : π i f = some j) :
    i < h.cells.size ∧ j < h'.cells.size := by
  obtain ⟨⟨vs, hi⟩, ⟨x, hx, -⟩, -⟩ := hm.pending hj
  exact ⟨lt_of_cell? hi, lt_of_cell? hx⟩

theorem pending_of_ne {d : ClassId} {vs : Fields} (hm : Mirror Q c σ π h h')
    (hi : h.cell? i = some (.object d vs)) (hd : d ≠ c) (f : String) : π i f = none := by
  refine Option.eq_none_iff_forall_ne_some.mpr fun j hj => ?_
  obtain ⟨⟨ws, hi'⟩, -⟩ := hm.pending hj
  cases hi.symm.trans hi'
  exact hd rfl

theorem exists_object {d : ClassId} {vs : Fields} (hm : Mirror Q c σ π h h')
    (hi : h.cell? i = some (.object d vs)) :
    ∃ vs', h'.cell? (σ i) = some (.object d vs') ∧
      (∀ f x, Assoc.get? f vs = some x → Assoc.get? f vs' = some (x.relabel σ)) ∧
      ∀ f, Assoc.get? f vs = none → Assoc.get? f vs' = (π i f).map .shared := by
  obtain ⟨cell', hi', hr⟩ := hm.cells hi
  cases hr with
  | @object _ _ vs' hf =>
    refine ⟨vs', hi', fun f x hx => ?_, fun f hx => ?_⟩ <;>
    · have hfield := hf f
      rwa [hx] at hfield

theorem cell?_container {kind : ContainerKind} {xs : List Datum} (hm : Mirror Q c σ π h h')
    (hi : h.cell? i = some (.container kind xs)) :
    h'.cell? (σ i) = some (.container kind (xs.map (Datum.relabel σ))) := by
  obtain ⟨cell', hi', hr⟩ := hm.cells hi
  cases hr with
  | container => exact hi'

theorem size_le (hm : Mirror Q c σ π h h') : h.cells.size ≤ h'.cells.size := by
  have := Fintype.card_le_of_injective
    (fun i : Fin h.cells.size => (⟨σ i, hm.lt i.2⟩ : Fin h'.cells.size))
    fun i j hij => Fin.ext (hm.inj i.2 j.2 (Fin.mk.inj_iff.mp hij))
  simpa using this

theorem isFlat_relabel {d : Datum} (hm : Mirror Q c σ π h h') (hd : d.IsFlat h.cells.size) :
    (d.relabel σ).IsFlat h'.cells.size := by
  cases d with
  | scalar | element => trivial
  | shared i => exact hm.lt hd
  | object | container => exact hd.elim

theorem mono_right {h'' : Heap} (hm : Mirror Q c σ π h h')
    (hsize : h'.cells.size ≤ h''.cells.size)
    (hold : ∀ i < h'.cells.size, h''.cell? i = h'.cell? i) : Mirror Q c σ π h h'' where
  closed := hm.closed
  lt hi := Nat.lt_of_lt_of_le (hm.lt hi) hsize
  inj := hm.inj
  cells hi := by
    obtain ⟨x, hx, hr⟩ := hm.cells hi
    exact ⟨x, by rwa [hold _ (lt_of_cell? hx)], hr⟩
  pending hj := by
    obtain ⟨hi, ⟨x, hx, hq⟩, hk⟩ := hm.pending hj
    exact ⟨hi, ⟨x, by rwa [hold _ (lt_of_cell? hx)], hq⟩, hk⟩
  apart := hm.apart

theorem inj_update (hm : Mirror Q c σ π h h') {t : Nat} (ht : ∀ k < h.cells.size, σ k ≠ t)
    {i j : Nat} (hi : i < h.cells.size + 1) (hj : j < h.cells.size + 1)
    (hij : Function.update σ h.cells.size t i = Function.update σ h.cells.size t j) : i = j := by
  have hσ {k} (hk : k < h.cells.size) := Function.update_of_ne (Nat.ne_of_lt hk) t σ
  rcases Nat.lt_succ_iff_lt_or_eq.mp hi with hi | rfl <;>
    rcases Nat.lt_succ_iff_lt_or_eq.mp hj with hj | rfl
  · rw [hσ hi, hσ hj] at hij
    exact hm.inj hi hj hij
  · rw [hσ hi, Function.update_self] at hij
    exact absurd hij (ht i hi)
  · rw [hσ hj, Function.update_self] at hij
    exact absurd hij.symm (ht j hj)
  · rfl

theorem cell?_allocate_eq_some {x : Cell}
    (hi : (h.allocate cell).1.cell? i = some x) :
    i = h.cells.size ∧ x = cell ∨ i < h.cells.size ∧ h.cell? i = some x := by
  have hlt := lt_of_cell? hi
  rw [size_allocate] at hlt
  rcases Nat.lt_succ_iff_lt_or_eq.mp hlt with hlt | rfl
  · exact Or.inr ⟨hlt, by rwa [cell?_allocate_of_lt hlt] at hi⟩
  · rw [cell?_allocate_self] at hi
    exact Or.inl ⟨rfl, (Option.some.inj hi).symm⟩

theorem cell?_setCell_eq_some {x : Cell} (hi : i < h.cells.size)
    (hj : (h.setCell i cell).cell? j = some x) :
    j = i ∧ x = cell ∨ j ≠ i ∧ h.cell? j = some x := by
  by_cases hji : j = i
  · subst hji
    rw [cell?_setCell_self hi] at hj
    exact Or.inl ⟨rfl, (Option.some.inj hj).symm⟩
  · rw [cell?_setCell_of_ne (Ne.symm hji)] at hj
    exact Or.inr ⟨hji, hj⟩

/-- A cell comes into both heaps, with pending containers if need be. -/
theorem allocate (hm : Mirror Q c σ π h h') (hflat : cell.IsFlat h.cells.size)
    {pend : String → Option Nat} (hrel : CellMirror σ pend cell cell')
    (hpend : ∀ f j, pend f = some j → (∃ vs, cell = .object c vs) ∧
      (∃ x, h'.cell? j = some x ∧ Q f x) ∧ (∀ k < h.cells.size, σ k ≠ j) ∧
      ∀ i f', π i f' ≠ some j)
    (hapart : ∀ f f' j, pend f = some j → pend f' = some j → f = f') :
    Mirror Q c (Function.update σ h.cells.size h'.cells.size)
      (Function.update π h.cells.size pend) (h.allocate cell).1 (h'.allocate cell').1 := by
  have hσ : ∀ i < h.cells.size, Function.update σ h.cells.size h'.cells.size i = σ i :=
    fun i hi => Function.update_of_ne (Nat.ne_of_lt hi) _ _
  have hfresh : ∀ k < h.cells.size, σ k ≠ h'.cells.size := fun k hk => Nat.ne_of_lt (hm.lt hk)
  -- No container that was pending stands at the new place.
  have hout {j} (hj : j < h'.cells.size) (hk : ∀ k < h.cells.size, σ k ≠ j) :
      ∀ k < h.cells.size + 1, Function.update σ h.cells.size h'.cells.size k ≠ j := by
    intro k hlt
    rcases Nat.lt_succ_iff_lt_or_eq.mp hlt with hlt | rfl
    · rw [hσ k hlt]; exact hk k hlt
    · rw [Function.update_self]; exact (Nat.ne_of_lt hj).symm
  have hnew {i f j} (hj : Function.update π h.cells.size pend i f = some j) :
      i = h.cells.size ∧ pend f = some j ∨ i ≠ h.cells.size ∧ π i f = some j := by
    by_cases hi : i = h.cells.size
    · subst hi
      rw [Function.update_self] at hj
      exact Or.inl ⟨rfl, hj⟩
    · rw [Function.update_of_ne hi] at hj
      exact Or.inr ⟨hi, hj⟩
  refine ⟨fun hi => ?_, fun {i} hi => ?_, fun hi hj hij => ?_, fun {i x} hi => ?_,
    fun {i f j} hj => ?_, fun {i f i' f' j} hj hj' => ?_⟩
  · rw [size_allocate]
    rcases cell?_allocate_eq_some hi with ⟨-, rfl⟩ | ⟨-, hi⟩
    · exact hflat.mono (Nat.le_succ _)
    · exact (hm.closed hi).mono (Nat.le_succ _)
  · rw [size_allocate] at hi ⊢
    rcases Nat.lt_succ_iff_lt_or_eq.mp hi with hlt | rfl
    · rw [hσ i hlt]
      exact Nat.lt_succ_of_lt (hm.lt hlt)
    · rw [Function.update_self]
      exact Nat.lt_succ_self _
  · rw [size_allocate] at hi hj
    exact hm.inj_update hfresh hi hj hij
  · rcases cell?_allocate_eq_some hi with ⟨rfl, rfl⟩ | ⟨hlt, hi⟩
    · rw [Function.update_self, Function.update_self]
      exact ⟨cell', cell?_allocate_self h' cell', hrel.congr hflat hσ⟩
    · obtain ⟨x', hx', hr⟩ := hm.cells hi
      rw [hσ i hlt, Function.update_of_ne (Nat.ne_of_lt hlt)]
      exact ⟨x', by rwa [cell?_allocate_of_lt (lt_of_cell? hx')], hr.congr (hm.closed hi) hσ⟩
  · rw [size_allocate]
    rcases hnew hj with ⟨rfl, hp⟩ | ⟨-, hj⟩
    · obtain ⟨⟨vs, rfl⟩, ⟨x, hx, hq⟩, hk, -⟩ := hpend f j hp
      exact ⟨⟨vs, cell?_allocate_self h _⟩,
        ⟨x, by rwa [cell?_allocate_of_lt (lt_of_cell? hx)], hq⟩, hout (lt_of_cell? hx) hk⟩
    · obtain ⟨⟨vs, hi⟩, ⟨x, hx, hq⟩, hk⟩ := hm.pending hj
      exact ⟨⟨vs, by rwa [cell?_allocate_of_lt (lt_of_cell? hi)]⟩,
        ⟨x, by rwa [cell?_allocate_of_lt (lt_of_cell? hx)], hq⟩, hout (lt_of_cell? hx) hk⟩
  · rcases hnew hj with ⟨hi, hp⟩ | ⟨-, hp⟩ <;> rcases hnew hj' with ⟨hi', hp'⟩ | ⟨-, hp'⟩
    · exact ⟨hi.trans hi'.symm, hapart f f' j hp hp'⟩
    · exact absurd hp' ((hpend f j hp).2.2.2 i' f')
    · exact absurd hp ((hpend f' j hp').2.2.2 i f)
    · exact hm.apart hp hp'

theorem allocate_plain (hm : Mirror Q c σ π h h') (hflat : cell.IsFlat h.cells.size)
    (hrel : CellMirror σ (fun _ => none) cell cell') :
    Mirror Q c (Function.update σ h.cells.size h'.cells.size)
      (Function.update π h.cells.size fun _ => none) (h.allocate cell).1 (h'.allocate cell').1 :=
  hm.allocate hflat hrel nofun nofun

theorem allocate_empty (hm : Mirror Q c σ π h h') (kind : ContainerKind) :
    Mirror Q c (Function.update σ h.cells.size h'.cells.size)
      (Function.update π h.cells.size fun _ => none) (h.allocate (.container kind [])).1
      (h'.allocate (.container kind [])).1 :=
  hm.allocate_plain (fun _ hx => absurd hx List.not_mem_nil) (.container kind [])

/-- A cell changes in both heaps. An object stays one of its class. -/
theorem set {cell₀ : Cell} (hm : Mirror Q c σ π h h') (hi : h.cell? i = some cell₀)
    (hflat : cell.IsFlat h.cells.size) (hrel : CellMirror σ (π i) cell cell')
    (hclass : ∀ d vs, cell₀ = .object d vs → ∃ vs', cell = .object d vs') :
    Mirror Q c σ π (h.setCell i cell) (h'.setCell (σ i) cell') := by
  have hlt := lt_of_cell? hi
  refine ⟨fun {j x} hj => ?_, fun hj => ?_, fun hj hk => ?_, fun {j x} hj => ?_,
    fun {k f j} hj => ?_, fun hj hj' => hm.apart hj hj'⟩
  · rw [size_setCell]
    rcases cell?_setCell_eq_some hlt hj with ⟨-, rfl⟩ | ⟨-, hj⟩
    · exact hflat
    · exact hm.closed hj
  · rw [size_setCell] at hj ⊢
    exact hm.lt hj
  · rw [size_setCell] at hj hk
    exact hm.inj hj hk
  · rcases cell?_setCell_eq_some hlt hj with ⟨rfl, rfl⟩ | ⟨hne, hj⟩
    · exact ⟨cell', cell?_setCell_self (hm.lt hlt), hrel⟩
    · obtain ⟨x', hx', hr⟩ := hm.cells hj
      have hσ : σ i ≠ σ j := fun he => hne (hm.inj hlt (lt_of_cell? hj) he).symm
      exact ⟨x', by rwa [cell?_setCell_of_ne hσ], hr⟩
  · obtain ⟨⟨vs, hk⟩, ⟨x, hx, hq⟩, hout⟩ := hm.pending hj
    rw [size_setCell]
    refine ⟨?_, ⟨x, by rwa [cell?_setCell_of_ne (hout i hlt)], hq⟩, hout⟩
    by_cases hki : k = i
    · subst hki
      obtain ⟨vs', rfl⟩ := hclass c vs (Option.some.inj (hi.symm.trans hk))
      exact ⟨vs', cell?_setCell_self hlt⟩
    · exact ⟨vs, by rwa [cell?_setCell_of_ne (Ne.symm hki)]⟩

theorem put {d : ClassId} {vs vs' : Fields} {x : Datum} (hm : Mirror Q c σ π h h')
    (hi : h.cell? i = some (.object d vs)) (hi' : h'.cell? (σ i) = some (.object d vs'))
    (hx : x.IsFlat h.cells.size) (f : String) :
    Mirror Q c σ π (h.setCell i (.object d (Assoc.put f x vs)))
      (h'.setCell (σ i) (.object d (Assoc.put f (x.relabel σ) vs'))) := by
  obtain ⟨cell', hcell', hr⟩ := hm.cells hi
  obtain rfl := Option.some.inj (hi'.symm.trans hcell')
  refine hm.set hi (fun g y hy => ?_) ?_ fun d' ws he => ?_
  · rw [Assoc.get?_put] at hy
    split at hy
    · cases hy; exact hx
    · exact hm.closed hi g y hy
  · cases hr with
    | object _ hf =>
      refine .object d fun g => ?_
      rw [Assoc.get?_put, Assoc.get?_put]
      split
      · rfl
      · exact hf g
  · cases he
    exact ⟨_, rfl⟩

theorem append {kind : ContainerKind} {xs : List Datum} {x : Datum} (hm : Mirror Q c σ π h h')
    (hi : h.cell? i = some (.container kind xs)) (hx : x.IsFlat h.cells.size) :
    Mirror Q c σ π (h.setCell i (.container kind (xs ++ [x])))
      (h'.setCell (σ i) (.container kind (xs.map (Datum.relabel σ) ++ [x.relabel σ]))) := by
  have hmap : xs.map (Datum.relabel σ) ++ [x.relabel σ] = (xs ++ [x]).map (Datum.relabel σ) := by
    simp
  rw [hmap]
  refine hm.set hi (fun y hy => ?_) (.container kind _) (fun _ _ he => by cases he)
  rcases List.mem_append.mp hy with hy | hy
  · exact hm.closed hi y hy
  · exact List.mem_singleton.mp hy ▸ hx

theorem make {d : ClassId} {vs vs' : Fields} {f : String} (hm : Mirror Q c σ π h h')
    (hi : h.cell? i = some (.object d vs)) (hi' : h'.cell? (σ i) = some (.object d vs'))
    (kind : ContainerKind) :
    Mirror Q c (Function.update σ h.cells.size h'.cells.size)
      (Function.update π h.cells.size fun _ => none)
      ((h.allocate (.container kind [])).1.setCell i
        (.object d (Assoc.put f (.shared h.cells.size) vs)))
      ((h'.allocate (.container kind [])).1.setCell (σ i)
        (.object d (Assoc.put f (.shared h'.cells.size) vs'))) := by
  have hlt := lt_of_cell? hi
  have hσ : Function.update σ h.cells.size h'.cells.size i = σ i :=
    Function.update_of_ne (Nat.ne_of_lt hlt) _ _
  have hput := (hm.allocate_empty kind).put (i := i) (x := .shared h.cells.size)
    (by rwa [cell?_allocate_of_lt hlt]) (by rwa [hσ, cell?_allocate_of_lt (hm.lt hlt)])
    (by rw [size_allocate]; exact Nat.lt_succ_self _) f
  rwa [Datum.relabel_update_self, hσ] at hput

/-! ### What happens to pending containers -/

def repend (π : Nat → String → Option Nat) (i : Nat) (f : String) (o : Option Nat) :
    Nat → String → Option Nat :=
  Function.update π i (Function.update (π i) f o)

theorem repend_self (π : Nat → String → Option Nat) (i : Nat) (f : String) (o : Option Nat) :
    repend π i f o i = Function.update (π i) f o := Function.update_self ..

theorem repend_of_ne {k : Nat} (hk : k ≠ i) (f : String) (o : Option Nat) :
    repend π i f o k = π k := Function.update_of_ne hk ..

theorem repend_eq_some {f g : String} {o : Option Nat} {k t : Nat}
    (ht : repend π i f o k g = some t) :
    (k = i ∧ g = f) ∧ o = some t ∨ ¬(k = i ∧ g = f) ∧ π k g = some t := by
  by_cases hk : k = i
  · subst hk
    rw [repend_self] at ht
    by_cases hg : g = f
    · subst hg
      rw [Function.update_self] at ht
      exact Or.inl ⟨⟨rfl, rfl⟩, ht⟩
    · rw [Function.update_of_ne hg] at ht
      exact Or.inr ⟨fun h => hg h.2, ht⟩
  · rw [repend_of_ne hk] at ht
    exact Or.inr ⟨fun h => hk h.1, ht⟩

/-- A pending container is made in the first heap as well. -/
theorem adopt {vs : Fields} {f : String} {kind : ContainerKind} (hm : Mirror Q c σ π h h')
    (hi : h.cell? i = some (.object c vs)) (hf : Assoc.get? f vs = none) (hj : π i f = some j)
    (hcell : h'.cell? j = some (.container kind [])) :
    Mirror Q c (Function.update σ h.cells.size j) (repend π i f none)
      ((h.allocate (.container kind [])).1.setCell i
        (.object c (Assoc.put f (.shared h.cells.size) vs))) h' := by
  have hlt := lt_of_cell? hi
  have hlt₁ : i < (h.allocate (.container kind [])).1.cells.size := by
    simpa using Nat.lt_succ_of_lt hlt
  obtain ⟨-, -, hfresh⟩ := hm.pending hj
  have hσ : ∀ k < h.cells.size, Function.update σ h.cells.size j k = σ k :=
    fun k hk => Function.update_of_ne (Nat.ne_of_lt hk) _ _
  have hold {k g t} (ht : repend π i f none k g = some t) : ¬(k = i ∧ g = f) ∧ π k g = some t :=
    (repend_eq_some ht).resolve_left fun h => by cases h.2
  refine ⟨fun {k x} hk => ?_, fun {k} hk => ?_, fun hk hl hkl => ?_, fun {k x} hk => ?_,
    fun {k g t} ht => ?_, fun ht ht' => hm.apart (hold ht).2 (hold ht').2⟩
  · rw [size_setCell, size_allocate]
    rcases cell?_setCell_eq_some hlt₁ hk with ⟨-, rfl⟩ | ⟨-, hk⟩
    · intro g y hy
      rw [Assoc.get?_put] at hy
      split at hy
      · cases hy; exact Nat.lt_succ_self _
      · exact (hm.closed hi g y hy).mono (Nat.le_succ _)
    · rcases cell?_allocate_eq_some hk with ⟨-, rfl⟩ | ⟨-, hk⟩
      · exact fun y hy => absurd hy List.not_mem_nil
      · exact (hm.closed hk).mono (Nat.le_succ _)
  · rw [size_setCell, size_allocate] at hk
    rcases Nat.lt_succ_iff_lt_or_eq.mp hk with hk | rfl
    · rw [hσ k hk]; exact hm.lt hk
    · rw [Function.update_self]; exact lt_of_cell? hcell
  · rw [size_setCell, size_allocate] at hk hl
    exact hm.inj_update hfresh hk hl hkl
  · rcases cell?_setCell_eq_some hlt₁ hk with ⟨rfl, rfl⟩ | ⟨hne, hk⟩
    · obtain ⟨x', hx', hr⟩ := hm.cells hi
      rw [hσ k hlt, repend_self]
      refine ⟨x', hx', (hr.congr (hm.closed hi) hσ).adopt hf ?_⟩
      rw [hj, Function.update_self]
    · rw [repend_of_ne hne]
      rcases cell?_allocate_eq_some hk with ⟨rfl, rfl⟩ | ⟨hk', hk⟩
      · rw [Function.update_self]
        exact ⟨_, hcell, .container kind []⟩
      · obtain ⟨x', hx', hr⟩ := hm.cells hk
        rw [hσ k hk']
        exact ⟨x', hx', hr.congr (hm.closed hk) hσ⟩
  · obtain ⟨hne, ht⟩ := hold ht
    obtain ⟨⟨ws, hk⟩, hx, hout⟩ := hm.pending ht
    refine ⟨?_, hx, fun l hl => ?_⟩
    · by_cases hki : k = i
      · subst hki
        exact ⟨_, cell?_setCell_self hlt₁⟩
      · exact ⟨ws, by rwa [cell?_setCell_of_ne (Ne.symm hki),
          cell?_allocate_of_lt (lt_of_cell? hk)]⟩
    · rw [size_setCell, size_allocate] at hl
      rcases Nat.lt_succ_iff_lt_or_eq.mp hl with hl | rfl
      · rw [hσ l hl]; exact hout l hl
      · rw [Function.update_self]
        rintro rfl
        exact hne (hm.apart ht hj)

theorem reserve {vs vs' : Fields} {f : String} (hm : Mirror Q c σ π h h')
    (hi : h.cell? i = some (.object c vs)) (hi' : h'.cell? (σ i) = some (.object c vs'))
    (hf : Assoc.get? f vs = none) (hq : Q f cell) :
    Mirror Q c σ (repend π i f (some h'.cells.size)) h
      ((h'.allocate cell).1.setCell (σ i)
        (.object c (Assoc.put f (.shared h'.cells.size) vs'))) := by
  have hlt := lt_of_cell? hi
  have hcell {t} (ht : t < h'.cells.size) (hne : σ i ≠ t) :
      ((h'.allocate cell).1.setCell (σ i)
        (.object c (Assoc.put f (.shared h'.cells.size) vs'))).cell? t = h'.cell? t := by
    rw [cell?_setCell_of_ne hne, cell?_allocate_of_lt ht]
  refine ⟨hm.closed, fun hk => ?_, hm.inj, fun {k x} hk => ?_, fun {k g t} ht => ?_,
    fun {k g k' g' t} ht ht' => ?_⟩
  · rw [size_setCell, size_allocate]
    exact Nat.lt_succ_of_lt (hm.lt hk)
  · obtain ⟨x', hx', hr⟩ := hm.cells hk
    by_cases hki : k = i
    · subst hki
      obtain rfl := Option.some.inj (hi.symm.trans hk)
      obtain rfl := Option.some.inj (hi'.symm.trans hx')
      rw [repend_self]
      exact ⟨_, cell?_setCell_self (by simpa using Nat.lt_succ_of_lt (hm.lt hlt)),
        hr.reserve hf _⟩
    · have hσ : σ i ≠ σ k := fun he => hki (hm.inj hlt (lt_of_cell? hk) he).symm
      rw [repend_of_ne hki]
      exact ⟨x', by rwa [hcell (lt_of_cell? hx') hσ], hr⟩
  · rcases repend_eq_some ht with ⟨⟨rfl, rfl⟩, hnew⟩ | ⟨-, ht⟩
    · obtain rfl := Option.some.inj hnew
      have hne : σ k ≠ h'.cells.size := Nat.ne_of_lt (hm.lt hlt)
      refine ⟨⟨vs, hi⟩, ⟨cell, ?_, hq⟩, fun l hl => Nat.ne_of_lt (hm.lt hl)⟩
      rw [cell?_setCell_of_ne hne, cell?_allocate_self]
    · obtain ⟨hk, ⟨x, hx, hqx⟩, hout⟩ := hm.pending ht
      exact ⟨hk, ⟨x, by rwa [hcell (lt_of_cell? hx) (hout i hlt)], hqx⟩, hout⟩
  · have hnew {k g} (hk : π k g = some t) (ht : some h'.cells.size = some t) : False :=
      absurd (hm.lt_of_pending hk).2 (Option.some.inj ht ▸ Nat.lt_irrefl _)
    rcases repend_eq_some ht with ⟨⟨hk, hg⟩, h₁⟩ | ⟨-, h₁⟩ <;>
      rcases repend_eq_some ht' with ⟨⟨hk', hg'⟩, h₂⟩ | ⟨-, h₂⟩
    · exact ⟨hk.trans hk'.symm, hg.trans hg'.symm⟩
    · exact (hnew h₂ h₁).elim
    · exact (hnew h₁ h₂).elim
    · exact hm.apart h₁ h₂

theorem setPending {f : String} (hm : Mirror Q c σ π h h') (hj : π i f = some j) (hq : Q f cell) :
    Mirror Q c σ π h (h'.setCell j cell) := by
  obtain ⟨-, ⟨x, hx, -⟩, hout⟩ := hm.pending hj
  refine ⟨hm.closed, fun hk => ?_, hm.inj, fun {k y} hk => ?_, fun {k g t} ht => ?_, hm.apart⟩
  · rw [size_setCell]
    exact hm.lt hk
  · obtain ⟨y', hy', hr⟩ := hm.cells hk
    exact ⟨y', by rwa [cell?_setCell_of_ne (hout k (lt_of_cell? hk)).symm], hr⟩
  · obtain ⟨hk, ⟨y, hy, hqy⟩, hl⟩ := hm.pending ht
    refine ⟨hk, ?_, hl⟩
    by_cases htj : t = j
    · subst htj
      obtain ⟨rfl, rfl⟩ := hm.apart ht hj
      exact ⟨cell, cell?_setCell_self (lt_of_cell? hx), hq⟩
    · exact ⟨y, by rwa [cell?_setCell_of_ne (Ne.symm htj)], hqy⟩

end Mirror

/-! ### Numbers that stay -/

/-- The cells that were there keep their numbers. -/
structure Later (σ σ' : Nat → Nat) (h h₁ : Heap) : Prop where
  size_le : h.cells.size ≤ h₁.cells.size
  eq_of_lt : ∀ i < h.cells.size, σ' i = σ i

namespace Later

variable {σ' σ'' : Nat → Nat} {h₁ h₂ : Heap} {d : Datum}

theorem refl (σ : Nat → Nat) (h : Heap) : Later σ σ h h := ⟨Nat.le_refl _, fun _ _ => rfl⟩

theorem of_size_eq (hs : h₁.cells.size = h.cells.size) : Later σ σ h h₁ :=
  ⟨Nat.le_of_eq hs.symm, fun _ _ => rfl⟩

theorem trans (hl : Later σ σ' h h₁) (hl' : Later σ' σ'' h₁ h₂) : Later σ σ'' h h₂ where
  size_le := Nat.le_trans hl.size_le hl'.size_le
  eq_of_lt i hi := (hl'.eq_of_lt i (Nat.lt_of_lt_of_le hi hl.size_le)).trans (hl.eq_of_lt i hi)

theorem update {t : Nat} (hs : h.cells.size ≤ h₁.cells.size) :
    Later σ (Function.update σ h.cells.size t) h h₁ :=
  ⟨hs, fun _ hi => Function.update_of_ne (Nat.ne_of_lt hi) _ _⟩

theorem relabel_eq (hl : Later σ σ' h h₁) (hd : d.IsFlat h.cells.size) :
    d.relabel σ' = d.relabel σ := Datum.relabel_congr hd hl.eq_of_lt

theorem isFlat (hl : Later σ σ' h h₁) (hd : d.IsFlat h.cells.size) : d.IsFlat h₁.cells.size :=
  hd.mono hl.size_le

end Later

/-! ### What is seen of a datum -/

/-- The items of containers and the classes of objects, down to some depth. -/
def seen (h : Heap) : Nat → Datum → Datum
  | n + 1, .shared i =>
    match h.cell? i with
    | some (.object d _) => .object d []
    | some (.container kind xs) => .container kind (xs.map (seen h n))
    | none => .null
  | 0, .shared _ => .null
  | _, d => d

theorem Mirror.seen_eq (hm : Mirror Q c σ π h h') {d : Datum} (hd : d.IsFlat h.cells.size)
    (n : Nat) : h'.seen n (d.relabel σ) = h.seen n d := by
  induction n generalizing d with
  | zero => cases d <;> rfl
  | succ n ih =>
    cases d with
    | scalar | element | object | container => rfl
    | shared i =>
      obtain ⟨cell, hi⟩ := exists_cell? hd
      cases cell with
      | object d vs =>
        obtain ⟨vs', hi', -⟩ := hm.exists_object hi
        simp only [Datum.relabel, seen, hi, hi']
      | container kind xs =>
        simp only [Datum.relabel, seen, hi, hm.cell?_container hi]
        rw [List.map_map]
        exact congrArg _ (List.map_congr_left fun y hy => ih (hm.closed hi y hy))

end Heap
end Enfold
