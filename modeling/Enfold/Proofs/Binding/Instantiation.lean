import Enfold.Proofs.Binding.Installed
import Enfold.Proofs.Model.Edit

/-! # The three ways in which containers come into being

The versions of a class whose containers are made with each object and at the first use answer all
calls alike. The version that leaves them to the caller answers like those two as far as it has been
given containers, if the caller passes on the same in all of them.
-/

namespace Enfold

namespace Heap

open Model (Versions)

variable {m m' : Model} {c : ClassId} {σ : Nat → Nat} {π : Nat → String → Option Nat}
  {h h' h₁ : Heap} {d v : Datum} {field : Option String} {i n : Nat} {vs vs' : Fields} {p : Property}
  {Q : String → Cell → Prop}

/-- The datum is a container, or it has no parts that are kept in cells. -/
def IsPlain (h : Heap) : Datum → Prop
  | .shared i => ∃ kind xs, h.cell? i = some (.container kind xs)
  | _ => True

theorem Keeps.isPlain (hk : Keeps c h h₁) (hd : h.IsPlain d) : h₁.IsPlain d := by
  cases d with
  | shared i =>
    obtain ⟨kind, xs, hi⟩ := hd
    obtain ⟨cell', hcell', hkeep⟩ := hk i _ hi
    cases hkeep with
    | container => exact ⟨_, _, hcell'⟩
  | scalar | element | object | container => trivial

theorem isPlain_setCell (hi : h.cell? i = some (.object c vs)) (hd : h.IsPlain d) (cell : Cell) :
    (h.setCell i cell).IsPlain d := by
  cases d with
  | shared j =>
    obtain ⟨kind, xs, hj⟩ := hd
    have hij : i ≠ j := by
      rintro rfl
      cases hi.symm.trans hj
    exact ⟨kind, xs, (cell?_setCell_of_ne hij).trans hj⟩
  | scalar | element | object | container => trivial

/-- The heap that a call leaves, which is the one before if the call fails. -/
def orBefore (h : Heap) : Except BindingError Heap → Heap
  | .ok t => t
  | .error _ => h

theorem Mirror.reachesHeap {x x' : Except BindingError Heap} (hm : Mirror Q c σ π h h')
    (hx : Agree (ReachesHeap Q c σ h) x x') :
    ReachesHeap Q c σ h (h.orBefore x) (h'.orBefore x') := by
  cases hx with
  | error => exact ⟨σ, π, .refl σ h, hm⟩
  | ok hr => exact hr

def AnyContainer (_ : String) (cell : Cell) : Prop := ∃ kind xs, cell = .container kind xs

theorem Mirror.exists_made (hm : Mirror AnyContainer c σ π h h')
    (hi : h.cell? i = some (.object c vs)) (hi' : h'.cell? (σ i) = some (.object c vs'))
    (hw : Instance.wrappedField m c field = .ok p) (hb : p.instantiation ≠ some .byCaller)
    (hx : Assoc.get? p.field vs = none) : ∃ π₁ h₁' j, Mirror AnyContainer c σ π₁ h h₁' ∧
      h'.items m (.shared (σ i)) field = .ok (h₁', .shared j) ∧ π₁ i p.field = some j := by
  obtain ⟨ws, hws, -, hmissing⟩ := hm.exists_object hi
  cases hi'.symm.trans hws
  have hfield := hmissing p.field hx
  cases hj : π i p.field with
  | some j =>
    rw [hj] at hfield
    exact ⟨π, h', j, hm, items_of_get? (d := .shared j) hi' hw hfield (hm.lt_of_pending hj).2, hj⟩
  | none =>
    rw [hj] at hfield
    obtain ⟨kind, hk⟩ := Instance.exists_newContainer p
    exact ⟨_, _, _, hm.reserve hi hi' hx ⟨kind, [], rfl⟩, items_of_none hi' hw hfield hb hk,
      by rw [Mirror.repend_self, Function.update_self]⟩

/-- A missing container is pending, or appending fails. -/
theorem Mirror.pushTo_missing {p' : Property} (hm : Mirror AnyContainer c σ π h h')
    (hi : h.cell? i = some (.object c vs)) (hi' : h'.cell? (σ i) = some (.object c vs'))
    (hw : Instance.wrappedField m c field = .ok p) (hw' : Instance.wrappedField m' c field = .ok p')
    (hf : p'.field = p.field) (hb : p.instantiation = some .byCaller)
    (hb' : p'.instantiation ≠ some .byCaller) (hx : Assoc.get? p.field vs = none) (n : Nat) :
    ReachesHeap AnyContainer c σ h (h.orBefore (h.pushTo m v (n + 1) (.shared i) field))
      (h'.orBefore (h'.pushTo m' (v.relabel σ) (n + 1) (.shared (σ i)) field)) := by
  obtain ⟨π₁, h₁', j, hm₁, hitems, hj⟩ := hm.exists_made hi hi' hw' hb' (hf ▸ hx)
  obtain ⟨-, ⟨_, hcell, kind, xs, rfl⟩, -⟩ := hm₁.pending hj
  rw [Heap.pushTo_object hi hw, Heap.pushTo_object hi' hw', items_of_byCaller hi hw hx hb, hitems]
  cases n with
  | zero => exact ⟨σ, π, .refl σ h, hm⟩
  | succ n =>
    change ReachesHeap _ _ _ _ h (h'.orBefore (h₁'.pushTo m' _ (n + 1) (.shared j) none))
    rw [Heap.pushTo_container hcell]
    exact ⟨σ, π₁, .refl σ h, hm₁.setPending hj ⟨kind, _, rfl⟩⟩

section Lazily

variable (hv : Versions m m' c)
  (hb : ∀ p ∈ (m.decl c).properties, (m.prop p).instantiation = some .byCaller)
  (hb' : ∀ p ∈ (m.decl c).properties, (m'.prop p).instantiation ≠ some .byCaller)

include hv hb hb' in
theorem Mirror.pushTo_lazily (hm : Mirror AnyContainer c σ π h h') (hi : i < h.cells.size)
    (hx : v.IsFlat h.cells.size) (n : Nat) (field : Option String) :
    ReachesHeap AnyContainer c σ h (h.orBefore (h.pushTo m v n (.shared i) field))
      (h'.orBefore (h'.pushTo m' (v.relabel σ) n (.shared (σ i)) field)) := by
  induction n generalizing i field with
  | zero => exact hm.reachesHeap (.error _)
  | succ n ih =>
    obtain ⟨cell, hi⟩ := exists_cell? hi
    cases cell with
    | container => exact hm.reachesHeap (hm.pushTo_container hi hx n field)
    | object e vs =>
      obtain ⟨vs', hi', hheld, -⟩ := hm.exists_object hi
      rcases hv.wrappedField e field with ⟨p, hp, hw, hw'⟩ | ⟨err, hw, hw'⟩
      swap
      · rw [pushTo_error hi hw, pushTo_error hi' hw']
        exact hm.reachesHeap (.error _)
      rcases items_cases hm.closed hi hw with ⟨x, hget, hflat, hitems⟩ | ⟨hget, hne, hitems⟩ |
        ⟨hget, hne, kind, -, hitems⟩
      · have hagree := hm.items_taken hi hw hw' (hv.field_eq p) hget
        cases x with
        | shared j =>
          have hget' := hheld (m.prop p).field _ hget
          rw [← hv.field_eq p] at hget'
          rw [Heap.pushTo_object hi hw, Heap.pushTo_object hi' hw', hitems,
            items_of_get? hi' hw' hget' (hm.lt hflat)]
          exact ih hflat none
        | scalar | element | object | container =>
          exact hm.reachesHeap (hm.pushTo_object hv hi hx hagree
            fun _ _ _ _ _ hj => by cases hitems.symm.trans hj)
      · by_cases he : e = c
        · subst he
          exact hm.pushTo_missing hi hi' hw hw' (hv.field_eq p) hne (hb' p hp) hget n
        · refine hm.reachesHeap (hm.pushTo_object hv hi hx (hm.items_byCaller hi hw hw'
            (hv.field_eq p) hne ?_ hget (hm.pending_of_ne hi he _)) fun _ _ _ _ _ hj => ?_)
          · rwa [hv.prop_of_ne e he p hp]
          · cases hitems.symm.trans hj
      · have he : e ≠ c := by
          rintro rfl
          exact hne (hb p hp)
        refine hm.reachesHeap (hm.pushTo_object hv hi hx (hm.items_made hi hw hw' (hv.field_eq p)
          (hv.newContainer_eq p) hne ?_ hget (hm.pending_of_ne hi he _))
          fun _ _ _ _ _ hj hm₁ _ hx₁ => ?_)
        · rwa [hv.prop_of_ne e he p hp]
        · cases hitems.symm.trans hj
          cases n with
          | zero => exact .error _
          | succ n => exact hm₁.pushTo_container (cell?_made hi kind _) hx₁ n none

include hv hb hb' in
theorem Mirror.appendTo_lazily (hm : Mirror AnyContainer c σ π h h') {e : ClassId}
    (hi : h.cell? i = some (.object e vs)) (hx : v.IsFlat h.cells.size) (field : Option String) :
    ReachesHeap AnyContainer c σ h (h.orBefore (h.appendTo m (.shared i) v field))
      (h'.orBefore (h'.appendTo m' (.shared (σ i)) (v.relabel σ) field)) := by
  obtain ⟨vs', hi', -⟩ := hm.exists_object hi
  have hlt := lt_of_cell? hi
  rw [appendTo_of_object hi, appendTo_of_object hi',
    ← pushTo_of_le hm.closed (d := .shared i) hlt (Nat.add_le_add_right hm.size_le 2)]
  exact hm.pushTo_lazily hv hb hb' hlt hx _ field

end Lazily

end Heap

namespace Caller

open Heap (Mirror Later IsNew AnyContainer)
open Model (Versions)

variable {m m' : Model} {c : ClassId} {s s' : Caller} {σ : Nat → Nat}
  {π : Nat → String → Option Nat} {call : Call} {calls : List Call} {i : Nat} {vs : Fields}
  {field : Option String}

/-- The caller passes on what it has, and not the nothing that it was given. -/
def Fair (s : Caller) : Call → Prop
  | .make _ xs => ∀ x ∈ xs, s.owns x
  | .setItems x _ | .append x _ => s.owns x
  | .create _ | .items _ => True

instance decidableFair (s : Caller) : ∀ call, Decidable (s.Fair call)
  | .make _ xs => inferInstanceAs (Decidable (∀ x ∈ xs, s.owns x))
  | .setItems x _ | .append x _ => inferInstanceAs (Decidable (s.owns x))
  | .create _ | .items _ => isTrue trivial

def FairFrom (m : Model) : Caller → List Call → Prop
  | _, [] => True
  | s, call :: calls => s.Fair call ∧ FairFrom m (s.next m call) calls

instance decidableFairFrom (m : Model) : ∀ s calls, Decidable (FairFrom m s calls)
  | _, [] => isTrue trivial
  | s, call :: calls =>
    @instDecidableAnd _ _ (decidableFair s call) (decidableFairFrom m (s.next m call) calls)

def Fairly (m : Model) (c : ClassId) (calls : List Call) : Prop := FairFrom m (start m c) calls

instance (m : Model) (c : ClassId) (calls : List Call) : Decidable (Fairly m c calls) :=
  decidableFairFrom m (start m c) calls

theorem fairFrom_concat : FairFrom m s (calls ++ [call]) ↔
    FairFrom m s calls ∧ (calls.foldl (next m) s).Fair call := by
  induction calls generalizing s with
  | nil => simp [FairFrom]
  | cons x calls ih => simp [FairFrom, ih, and_assoc]

theorem fairly_concat :
    Fairly m c (calls ++ [call]) ↔ Fairly m c calls ∧ (after m c calls).Fair call :=
  fairFrom_concat

def asked? : Call → Option (Option String)
  | .items field | .append _ field => some field
  | _ => none

def HasPlain (s : Caller) (c : ClassId) (f : String) : Prop :=
  ∃ i vs x, Stands c s i vs ∧ Assoc.get? f vs = some x ∧ s.heap.IsPlain x

theorem HasPlain.of_stands {f : String} (hp : s.HasPlain c f) (hs : Stands c s i vs) :
    ∃ x, Assoc.get? f vs = some x ∧ s.heap.IsPlain x := by
  obtain ⟨j, ws, x, hs', hx, hplain⟩ := hp
  obtain ⟨-, rfl⟩ := hs.unique hs'
  exact ⟨x, hx, hplain⟩

theorem self_mirrors {loose : Prop} {Q : String → Cell → Prop}
    (hs : Mirrors loose Q c σ π s s') (hst : Stands c s i vs) : s'.self = .shared (σ i) := by
  rw [(self_relabel hs).1, hst.self_eq]
  rfl

/-! ### Containers that stay installed -/

section Installed

variable (hn : (m.fields c).Nodup)
  (hb : ∀ p ∈ (m.decl c).properties, (m.prop p).instantiation = some .byCaller)

include hn hb in
theorem isPlain_next (hc : s.heap.IsClosed) (hs : Stands c s i vs) {d : Datum}
    (hd : s.heap.IsPlain d) (call : Call) : (s.next m call).heap.IsPlain d := by
  by_cases hcall : ∀ x field, call ≠ .setItems x field
  · exact (keeps_next hn hb hc hs hcall).isPlain hd
  · push Not at hcall
    obtain ⟨x, field, rfl⟩ := hcall
    rw [next_setItems hs]
    split
    · exact Heap.isPlain_setCell hs.cell hd _
    · exact hd

include hn hb in
theorem HasPlain.next {f : String} (hc : s.heap.IsClosed) (hp : s.HasPlain c f)
    (hcall : ¬Installs m c f call) : (s.next m call).HasPlain c f := by
  obtain ⟨i, vs, x, hs, hx, hplain⟩ := hp
  obtain ⟨vs', hs', hf⟩ := hs.next hn hb hc call
  rcases hf f with ⟨_, _, -, hinst, -⟩ | ⟨-, hkeep | ⟨e, e', -, he⟩⟩
  · exact absurd hinst hcall
  · exact ⟨i, vs', x, hs', hkeep.trans hx, isPlain_next hn hb hc hs hplain call⟩
  · exact ⟨i, vs', _, hs', he, trivial⟩

/-- What was installed last in a field is a container, or has no parts. -/
def Equipped (m : Model) (c : ClassId) (calls : List Call) (f : String) : Prop :=
  ∃ before x field rest, calls = before ++ .setItems x field :: rest ∧
    Installs m c f (.setItems x field) ∧
    (after m c before).heap.IsPlain ((after m c before).datum x) ∧
    ∀ call ∈ rest, ¬Installs m c f call

include hn hb in
theorem Equipped.hasPlain {f : String} (he : Equipped m c calls f) :
    (after m c calls).HasPlain c f := by
  have hlate := not_eager hb
  obtain ⟨before, x, field, rest, rfl, hinst, hplain, hrest⟩ := he
  induction rest using List.reverseRecOn with
  | nil =>
    obtain ⟨i, vs, hs, -⟩ := after_stands hn hb before
    obtain ⟨vs', hs', hf⟩ := hs.next hn hb (isClosed_after hn hlate before) (.setItems x field)
    rw [after_concat]
    rcases hf f with ⟨y, field', hy, -, hget⟩ | ⟨hnot, -⟩
    · cases hy
      exact ⟨i, vs', _, hs', hget,
        isPlain_next hn hb (isClosed_after hn hlate before) hs hplain _⟩
    · exact absurd hinst hnot
  | append_singleton rest call ih =>
    rw [← List.cons_append, ← List.append_assoc, after_concat]
    refine (ih fun x hx => hrest x (List.mem_append_left _ hx)).next hn hb
      (isClosed_after hn hlate _) (hrest call ?_)
    exact List.mem_append_right _ (List.mem_singleton_self call)

end Installed

/-! ### Calls on fields that have something -/

section Answers

variable (hv : Versions m m' c) (hs : Mirrors True AnyContainer c σ π s s')
  (hst : Stands c s i vs)

include hv hs hst in
theorem items_of_installed
    (hf : ∀ p, Instance.wrappedField m c field = .ok p → (Assoc.get? p.field vs).isSome) :
    Agree (Heap.Reaches AnyContainer c σ s.heap) (s.heap.items m (.shared i) field)
      (s'.heap.items m' (.shared (σ i)) field) := by
  rcases hv.wrappedField c field with ⟨p, -, hw, hw'⟩ | ⟨err, hw, hw'⟩
  · obtain ⟨x, hx⟩ := Option.isSome_iff_exists.mp (hf _ hw)
    exact hs.heap.items_taken hst.cell hw hw' (hv.field_eq p) hx
  · obtain ⟨vs', hi', -⟩ := hs.heap.exists_object hst.cell
    rw [Heap.items_of_error hst.cell hw, Heap.items_of_error hi' hw']
    exact .error _

include hv hs hst in
theorem appendTo_of_installed {v : Datum} (hx : v.IsFlat s.heap.cells.size)
    (hf : ∀ p, Instance.wrappedField m c field = .ok p → s.HasPlain c p.field) :
    Agree (Heap.ReachesHeap AnyContainer c σ s.heap) (s.heap.appendTo m (.shared i) v field)
      (s'.heap.appendTo m' (.shared (σ i)) (v.relabel σ) field) := by
  have hsome : ∀ p, Instance.wrappedField m c field = .ok p → (Assoc.get? p.field vs).isSome := by
    intro p hw
    obtain ⟨x, hx, -⟩ := (hf p hw).of_stands hst
    simp [hx]
  refine hs.heap.appendTo_object hst.cell (hs.heap.pushTo_object hv hst.cell hx
    (items_of_installed hv hs hst hsome) ?_)
  rintro σ₁ π₁ h₁ h₁' j hitems hm₁ - hx₁
  cases hw : Instance.wrappedField m c field with
  | error =>
    rw [Heap.items_of_error hst.cell hw] at hitems
    cases hitems
  | ok p =>
    obtain ⟨x, hget, hplain⟩ := (hf p hw).of_stands hst
    rw [Heap.items_of_get? hst.cell hw hget (hs.heap.closed hst.cell _ _ hget)] at hitems
    cases hitems
    obtain ⟨kind, xs, hj⟩ := hplain
    exact hm₁.pushTo_container hj hx₁ _ none

include hv hs hst in
/-- A fair call does the same if the field has a container. -/
theorem step_of_installed
    (hlate : ∀ p ∈ (m.decl c).properties, (m.prop p).instantiation ≠ some .eager)
    (hfair : s.Fair call) (hf : ∀ field, asked? call = some field →
      ∀ p, Instance.wrappedField m c field = .ok p → s.HasPlain c p.field) :
    Agree (SameAnswer True AnyContainer c) (s.step m call) (s'.step m' call) := by
  have hself := self_mirrors hs hst
  cases call with
  | make kind xs => exact step_make hs kind fun _ => hfair
  | create cls =>
    exact step_create hs (hs.heap.create hv hlate (fun _ kind _ => ⟨kind, [], rfl⟩) cls)
  | items field =>
    refine step_items_of_reaches hs ?_
    rw [hst.self_eq, hself]
    refine items_of_installed hv hs hst fun p hw => ?_
    obtain ⟨x, hx, -⟩ := (hf field rfl p hw).of_stands hst
    simp [hx]
  | setItems x field => exact step_setItems hv hs (fun _ => hfair) field
  | append x field =>
    obtain ⟨hdatum, hflat⟩ := hs.datum (x := x) fun _ => hfair
    refine step_append_of_reaches hs ?_
    rw [hst.self_eq, hself, hdatum]
    exact appendTo_of_installed hv hs hst hflat (hf field rfl)

end Answers

/-! ### All fair calls -/

section Versions

variable (hv : Versions m m' c)
  (hb : ∀ p ∈ (m.decl c).properties, (m.prop p).instantiation = some .byCaller)
  (hb' : ∀ p ∈ (m.decl c).properties, (m'.prop p).instantiation ≠ some .byCaller)

include hv hb hb' in
theorem next_items (hs : Mirrors True AnyContainer c σ π s s') (hst : Stands c s i vs)
    (field : Option String) : ∃ σ₁ π₁, Mirrors True AnyContainer c σ₁ π₁
      (s.next m (.items field)) (s'.next m' (.items field)) := by
  have hself := self_mirrors hs hst
  by_cases hf : ∀ p, Instance.wrappedField m c field = .ok p → (Assoc.get? p.field vs).isSome
  · refine next_mirrors hs (step_items_of_reaches hs ?_)
    rw [hst.self_eq, hself]
    exact items_of_installed hv hs hst hf
  · push Not at hf
    obtain ⟨x, hw, hx⟩ := hf
    rcases hv.wrappedField c field with ⟨p, hp, hw₁, hw'⟩ | ⟨err, hw₁, -⟩
    · cases hw.symm.trans hw₁
      have hmissing := Option.not_isSome_iff_eq_none.mp hx
      have hitems := (step_of_missing hst hw (hb p hp) hmissing).1
      obtain ⟨vs', hi', -⟩ := hs.heap.exists_object hst.cell
      rw [← hv.field_eq p] at hmissing
      obtain ⟨π₁, h₁', j, hm₁, hitems', -⟩ :=
        hs.heap.exists_made hst.cell hi' hw' (hb' p hp) hmissing
      rw [← hself] at hitems'
      have hright := hs.later (.refl σ s.heap) hm₁
      refine ⟨σ, π₁, ?_⟩
      simp only [next, hitems]
      simp only [step, hitems']
      exact { hright with
        given := List.rel_append hright.given (.cons ⟨trivial, Or.inr ⟨trivial, rfl⟩⟩ .nil) }
    · cases hw.symm.trans hw₁

theorem next_append (m : Model) (s : Caller) (x : Operand) (field : Option String) :
    s.next m (.append x field) =
      { s with heap := s.heap.orBefore (s.heap.appendTo m s.self (s.datum x) field) } := by
  simp only [next, step]
  cases s.heap.appendTo m s.self (s.datum x) field <;> rfl

include hv hb hb' in
theorem next_fair (hs : Mirrors True AnyContainer c σ π s s') (hst : Stands c s i vs)
    (hfair : s.Fair call) :
    ∃ σ₁ π₁, Mirrors True AnyContainer c σ₁ π₁ (s.next m call) (s'.next m' call) := by
  have hlate := not_eager hb
  cases call with
  | items field => exact next_items hv hb hb' hs hst field
  | append x field =>
    obtain ⟨hdatum, hflat⟩ := hs.datum (x := x) fun _ => hfair
    obtain ⟨σ₁, π₁, hl, hm⟩ := hs.heap.appendTo_lazily hv hb hb' hst.cell hflat field
    rw [next_append, next_append, hst.self_eq, self_mirrors hs hst, hdatum]
    exact ⟨σ₁, π₁, hs.later hl hm⟩
  | make | create | setItems =>
    exact next_mirrors hs (step_of_installed hv hs hst hlate hfair fun _ hcall => by cases hcall)

include hv hb hb' in
/-- After fair calls both callers have the same, but for what one was not given. -/
theorem after_fairly (hfair : Fairly m c calls) :
    ∃ σ π, Mirrors True AnyContainer c σ π (after m c calls) (after m' c calls) := by
  induction calls using List.reverseRecOn with
  | nil =>
    exact start_mirrors ((Heap.isClosed_empty.mirror _ c).create hv (not_eager hb)
      (fun _ kind _ => ⟨kind, [], rfl⟩) c)
  | append_singleton calls call ih =>
    obtain ⟨hfair, hlast⟩ := fairly_concat.mp hfair
    obtain ⟨σ, π, hs⟩ := ih hfair
    obtain ⟨i, vs, hst, -⟩ := after_stands hv.nodup hb calls
    rw [after_concat, after_concat]
    exact next_fair hv hb hb' hs hst hlast

include hv hb hb' in
theorem answer_of_equipped (hfair : Fairly m c (calls ++ [call]))
    (hf : ∀ field, asked? call = some field →
      ∀ p, Instance.wrappedField m c field = .ok p → Equipped m c calls p.field) (depth : Nat) :
    (after m' c calls).answer m' call depth = (after m c calls).answer m call depth := by
  obtain ⟨hfair, hlast⟩ := fairly_concat.mp hfair
  obtain ⟨σ, π, hs⟩ := after_fairly hv hb hb' hfair
  obtain ⟨i, vs, hst, -⟩ := after_stands hv.nodup hb calls
  exact answer_eq (step_of_installed hv hs hst (not_eager hb) hlast
    fun field hcall p hw => (hf field hcall p hw).hasPlain hv.nodup hb) depth

end Versions

def answerAfter (m : Model) (c : ClassId) (calls : List Call) (call : Call) (depth : Nat) :
    Except BindingError Datum :=
  (after m c calls).answer m call depth

/-- Versions that make containers answer all calls alike. The one that leaves them to the caller
does so from when one is installed. -/
theorem versions_alike (hm : m.Linked) (hn : (m.fields c).Nodup) (calls : List Call) :
    let bare := m.instantiating c .byCaller
    (∀ call depth, answerAfter (m.instantiating c .eager) c calls call depth =
      answerAfter (m.instantiating c .lazy) c calls call depth) ∧
    (∀ field p, Instance.wrappedField bare c field = .ok p →
      (∀ call ∈ calls, ¬Installs bare c p.field call) →
      let s := after bare c calls
      s.step bare (.items field) = .ok ({ s with given := s.given ++ [.null] }, .null) ∧
        ∀ x, s.step bare (.append x field) =
          .error (.noContainer (bare.qualifiedName c) p.field)) ∧
    ∀ call, Fairly bare c (calls ++ [call]) →
      (∀ field, asked? call = some field → ∀ p, Instance.wrappedField bare c field = .ok p →
        Equipped bare c calls p.field) →
      ∀ i, i ≠ .byCaller → ∀ depth,
        answerAfter bare c calls call depth =
          answerAfter (m.instantiating c i) c calls call depth := by
  intro bare
  have hprop (i : Instantiation) {p : PropertyId} (hp : p ∈ (m.decl c).properties) :
      ((m.instantiating c i).prop p).instantiation = some i := by
    rw [Model.prop_instantiating_of_mem hm hp]
  have hb : ∀ p ∈ (bare.decl c).properties, (bare.prop p).instantiation = some .byCaller :=
    fun p hp => hprop .byCaller hp
  refine ⟨fun call depth => ?_, fun field p hw hnone => ?_, fun call hfair hf i hi depth => ?_⟩
  · have hv := Model.versions_instantiating hm hn .lazy .eager
    have hleave : (m.instantiating c .lazy).LeavesAlike (m.instantiating c .eager) :=
      hv.leavesAlike fun p hp => by simp [hprop _ hp]
    have hlate : ∀ p ∈ ((m.instantiating c .lazy).decl c).properties,
        ((m.instantiating c .lazy).prop p).instantiation ≠ some .eager :=
      fun p hp => by simp [hprop _ hp]
    obtain ⟨σ, π, hs⟩ := after_alike hv hleave hlate calls
    exact answer_eq (step_alike hv hleave hlate hs call) depth
  · have hv := Model.versions_instantiating hm hn .byCaller .lazy
    obtain ⟨i, vs, hst, hsome⟩ := after_stands hv.nodup hb calls
    have hmissing : Assoc.get? p.field vs = none := by
      refine Option.not_isSome_iff_eq_none.mp fun h => ?_
      obtain ⟨call, hcall, hinst⟩ := (hsome p.field).mp h
      exact hnone call hcall hinst
    rcases hv.wrappedField c field with ⟨q, hq, hw', -⟩ | ⟨err, hw', -⟩
    · cases hw'.symm.trans hw
      exact step_of_missing hst hw (hb q hq) hmissing
    · cases hw'.symm.trans hw
  · have hv := Model.versions_instantiating hm hn .byCaller i
    exact (answer_of_equipped hv hb (fun p hp => by simp [hprop _ hp, hi]) hfair hf depth).symm

def itemsAndNotes : Model :=
  let (m, c) := Model.addClass { episode := none } { name := "Parts", isWrapper := true } none
  (m.addProperty c { name := "item", valueType := none }).addProperty c
    { name := "note", valueType := none }

theorem itemsAndNotes_linked : itemsAndNotes.Linked := by
  have hclass : (Model.addClass { episode := none } { name := "Parts", isWrapper := true }
      none).1.Linked := (Model.linked_empty none).addClass rfl nofun
  exact (hclass.addProperty (c := ⟨0⟩) (by decide) rfl).addProperty (c := ⟨0⟩) (by decide) rfl

theorem answers_of_itemsAndNotes :
    let bare := itemsAndNotes.instantiating ⟨0⟩ .byCaller
    let calls := [.items (some "note"), .make .list [], .setItems (.container 0) none,
      .append (.scalar (.text "pen")) (some "item")]
    itemsAndNotes.Linked ∧ (itemsAndNotes.fields ⟨0⟩).Nodup ∧
      (answerAfter (itemsAndNotes.instantiating ⟨0⟩ .eager) ⟨0⟩ calls (.items none) 2 =
        answerAfter (itemsAndNotes.instantiating ⟨0⟩ .lazy) ⟨0⟩ calls (.items none) 2) ∧
      (∀ x, (after bare ⟨0⟩ calls).step bare (.append x (some "note")) =
        .error (.noContainer "Parts" "note")) ∧
      answerAfter (itemsAndNotes.instantiating ⟨0⟩ .lazy) ⟨0⟩ calls (.items none) 2 =
        .ok (.container .list [.scalar (.text "pen")]) := by
  intro bare calls
  have hn : (itemsAndNotes.fields ⟨0⟩).Nodup := by decide +kernel
  have hitem : Instance.wrappedField bare ⟨0⟩ none = .ok (bare.prop ⟨0⟩) := rfl
  have hnote : Instance.wrappedField bare ⟨0⟩ (some "note") = .ok (bare.prop ⟨1⟩) := rfl
  obtain ⟨halike, hmissing, hinstalled⟩ := versions_alike itemsAndNotes_linked hn calls
  refine ⟨itemsAndNotes_linked, hn, halike _ _, ?_, ?_⟩
  · have hname : bare.qualifiedName ⟨0⟩ = "Parts" := by decide +kernel
    rw [← hname]
    refine (hmissing (some "note") (bare.prop ⟨1⟩) hnote ?_).2
    intro call hcall
    simp only [calls, List.mem_cons, List.not_mem_nil, or_false] at hcall
    rcases hcall with rfl | rfl | rfl | rfl
    · exact id
    · exact id
    · rintro ⟨p, hp, hf⟩
      cases hitem.symm.trans hp
      exact absurd hf (by decide +kernel)
    · exact id
  · refine (hinstalled (.items none) ?_ ?_ .lazy nofun 2).symm.trans rfl
    · decide +kernel
    · rintro field hfield p hp
      obtain rfl := Option.some.inj hfield
      cases hitem.symm.trans hp
      exact ⟨[.items (some "note"), .make .list []], .container 0, none,
        [.append (.scalar (.text "pen")) (some "item")], rfl, ⟨_, hitem, rfl⟩, ⟨.list, [], rfl⟩,
        fun call hcall => List.mem_singleton.mp hcall ▸ id⟩

end Caller
end Enfold
