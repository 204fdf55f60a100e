import Enfold.Proofs.Binding.Versions

/-! # Calls on an object

A caller has a fresh object of a class and asks for the items of its fields, installs containers and
appends to them, in any order. It passes on what it has: data of its own, other objects and whatever
it was given. No sequence of calls tells objects that have their containers from the start from those
that make them at the first use. Where this is left to the caller, a field is nothing until the first
container is installed, and does as in the other versions from then on.
-/

namespace Enfold

inductive Operand where
  | scalar (v : Value)
  | element (e : Xml.Element)
  /-- An object by its place among those that the caller has. The first is the one that is called. -/
  | object (n : Nat)
  /-- A container by its place among those that the caller made. -/
  | container (n : Nat)
  /-- What an earlier call for items returned, by its place among these. -/
  | given (n : Nat)

inductive Call where
  /-- Makes a container, on which no object is called yet. -/
  | make (kind : ContainerKind) (items : List Operand)
  /-- Makes another object. -/
  | create (cls : ClassId)
  | items (field : Option String)
  | setItems (x : Operand) (field : Option String)
  | append (x : Operand) (field : Option String)

structure Caller where
  heap : Heap
  objects : List Datum := []
  containers : List Datum := []
  given : List Datum := []

namespace Caller

variable (m : Model) (s : Caller)

def datum : Operand → Datum
  | .scalar v => .scalar v
  | .element e => .element e
  | .object n => s.objects[n]?.getD .null
  | .container n => s.containers[n]?.getD .null
  | .given n => s.given[n]?.getD .null

def self : Datum := s.datum (.object 0)

/-- The caller after a call, with what was returned. -/
def step : Call → Except BindingError (Caller × Datum)
  | .make kind items =>
    let (h, d) := s.heap.allocate (.container kind (items.map s.datum))
    .ok ({ s with heap := h, containers := s.containers ++ [d] }, .null)
  | .create cls =>
    let (h, d) := s.heap.store (.object cls (Instance.fresh m cls))
    .ok ({ s with heap := h, objects := s.objects ++ [d] }, .null)
  | .items field =>
    (s.heap.items m s.self field).map fun r =>
      ({ s with heap := r.1, given := s.given ++ [r.2] }, r.2)
  | .setItems x field =>
    (s.heap.setItems m s.self (s.datum x) field).map fun h => ({ s with heap := h }, .null)
  | .append x field =>
    (s.heap.appendTo m s.self (s.datum x) field).map fun h => ({ s with heap := h }, .null)

/-- A call that fails leaves everything as it is: `Heap.items_eq_of_pushTo_error` says why. -/
def next (call : Call) : Caller :=
  match s.step m call with
  | .ok r => r.1
  | .error _ => s

/-- What is seen of the answer to a call, down to some depth. -/
def answer (call : Call) (depth : Nat) : Except BindingError Datum :=
  (s.step m call).map fun r => r.1.heap.seen depth r.2

def start (c : ClassId) : Caller :=
  let (h, d) := ({} : Heap).store (.object c (Instance.fresh m c))
  { heap := h, objects := [d] }

def after (c : ClassId) (calls : List Call) : Caller := calls.foldl (next m) (start m c)

end Caller

namespace Caller

open Heap (Mirror Later IsNew)
open Model (Versions)

variable {m m' : Model} {c : ClassId} {s s' : Caller} {loose : Prop} {Q : String → Cell → Prop}
  {σ : Nat → Nat} {π : Nat → String → Option Nat}

/-- Two callers have the same, but for what one of them was not given. -/
structure Mirrors (loose : Prop) (Q : String → Cell → Prop) (c : ClassId) (σ : Nat → Nat)
    (π : Nat → String → Option Nat) (s s' : Caller) : Prop where
  heap : Mirror Q c σ π s.heap s'.heap
  objects : s'.objects = s.objects.map (Datum.relabel σ)
  containers : s'.containers = s.containers.map (Datum.relabel σ)
  given : List.Forall₂ (fun d d' => d.IsFlat s.heap.cells.size ∧
    (d' = d.relabel σ ∨ loose ∧ d.isNull)) s.given s'.given
  objects_flat : ∀ d ∈ s.objects, d.IsFlat s.heap.cells.size
  containers_flat : ∀ d ∈ s.containers, d.IsFlat s.heap.cells.size

def owns (s : Caller) : Operand → Bool
  | .given n => !(s.datum (.given n)).isNull
  | _ => true

theorem getD_relabel {l : List Datum} {n k : Nat} (hl : ∀ d ∈ l, d.IsFlat k) :
    (l.map (Datum.relabel σ))[n]?.getD .null = (l[n]?.getD .null).relabel σ ∧
      (l[n]?.getD .null).IsFlat k := by
  rw [List.getElem?_map]
  cases hd : l[n]? with
  | none => exact ⟨rfl, trivial⟩
  | some d => exact ⟨rfl, hl d (List.mem_of_getElem? hd)⟩

theorem Mirrors.datum (hs : Mirrors loose Q c σ π s s') {x : Operand} (hx : loose → s.owns x) :
    s'.datum x = (s.datum x).relabel σ ∧ (s.datum x).IsFlat s.heap.cells.size := by
  cases x with
  | scalar | element => exact ⟨rfl, trivial⟩
  | object n =>
    unfold Caller.datum
    dsimp only
    rw [hs.objects]
    exact getD_relabel hs.objects_flat
  | container n =>
    unfold Caller.datum
    dsimp only
    rw [hs.containers]
    exact getD_relabel hs.containers_flat
  | given n =>
    have hlength := hs.given.length_eq
    unfold owns at hx
    unfold Caller.datum at hx ⊢
    dsimp only at hx ⊢
    by_cases hn : n < s.given.length
    · have hn' : n < s'.given.length := hlength ▸ hn
      obtain ⟨hflat, hd⟩ := (List.forall₂_iff_get.mp hs.given).2 n hn hn'
      rw [List.getElem?_eq_getElem hn, List.getElem?_eq_getElem hn'] at *
      refine ⟨hd.resolve_right fun ⟨hloose, hnull⟩ => ?_, hflat⟩
      have := hx hloose
      simp only [Option.getD_some, Bool.not_eq_true'] at this
      exact absurd hnull (by simpa using this)
    · rw [List.getElem?_eq_none (Nat.le_of_not_lt hn),
        List.getElem?_eq_none (hlength ▸ Nat.le_of_not_lt hn)]
      exact ⟨rfl, trivial⟩

theorem Mirrors.later {σ₁ : Nat → Nat} {π₁ : Nat → String → Option Nat} {h h' : Heap}
    (hs : Mirrors loose Q c σ π s s') (hl : Later σ σ₁ s.heap h) (hm : Mirror Q c σ₁ π₁ h h') :
    Mirrors loose Q c σ₁ π₁ { s with heap := h } { s' with heap := h' } where
  heap := hm
  objects := hs.objects.trans
    (List.map_congr_left fun d hd => (hl.relabel_eq (hs.objects_flat d hd)).symm)
  containers := hs.containers.trans
    (List.map_congr_left fun d hd => (hl.relabel_eq (hs.containers_flat d hd)).symm)
  given := hs.given.imp fun _ _ ⟨hflat, hd⟩ => ⟨hl.isFlat hflat, by rwa [hl.relabel_eq hflat]⟩
  objects_flat d hd := hl.isFlat (hs.objects_flat d hd)
  containers_flat d hd := hl.isFlat (hs.containers_flat d hd)

theorem forall_mem_concat {P : Datum → Prop} {l : List Datum} {d : Datum} (hl : ∀ x ∈ l, P x)
    (hd : P d) : ∀ x ∈ l ++ [d], P x := by
  simpa [or_imp, forall_and] using ⟨hl, hd⟩

def SameAnswer (loose : Prop) (Q : String → Cell → Prop) (c : ClassId)
    (r r' : Caller × Datum) : Prop :=
  ∃ σ π, Mirrors loose Q c σ π r.1 r'.1 ∧ r.2.IsFlat r.1.heap.cells.size ∧ r'.2 = r.2.relabel σ

theorem step_make (hs : Mirrors loose Q c σ π s s') (kind : ContainerKind) {xs : List Operand}
    (hx : loose → ∀ x ∈ xs, s.owns x) :
    Agree (SameAnswer loose Q c) (s.step m (.make kind xs)) (s'.step m' (.make kind xs)) := by
  have hitems : xs.map s'.datum = (xs.map s.datum).map (Datum.relabel σ) := by
    rw [List.map_map]
    exact List.map_congr_left fun x hm => (hs.datum fun hl => hx hl x hm).1
  have hflat : (Cell.container kind (xs.map s.datum)).IsFlat s.heap.cells.size := by
    intro d hd
    obtain ⟨x, hm, rfl⟩ := List.mem_map.mp hd
    exact (hs.datum fun hl => hx hl x hm).2
  have hboth := hs.heap.allocate_plain hflat (.container kind _)
  rw [← hitems] at hboth
  have hlater := hs.later (.update (by simp)) hboth
  refine .ok ⟨_, _, { hlater with
    containers := ?_, containers_flat := ?_ }, trivial, rfl⟩
  · have hnew := Datum.relabel_update_self σ s.heap.cells.size s'.heap.cells.size
    rw [List.map_append]
    exact congrArg₂ _ hlater.containers (congrArg ([·]) hnew.symm)
  · exact forall_mem_concat hlater.containers_flat (Heap.isFlat_allocate _ _)

theorem step_create {cls : ClassId} (hs : Mirrors loose Q c σ π s s')
    (hc : Heap.Reaches Q c σ s.heap (s.heap.store (.object cls (Instance.fresh m cls)))
      (s'.heap.store (.object cls (Instance.fresh m' cls)))) :
    Agree (SameAnswer loose Q c) (s.step m (.create cls)) (s'.step m' (.create cls)) := by
  obtain ⟨σ₁, π₁, hl, hm, hflat, heq⟩ := hc
  have hlater := hs.later hl hm
  refine .ok ⟨σ₁, π₁, { hlater with objects := ?_, objects_flat := ?_ }, trivial, rfl⟩
  · rw [List.map_append]
    exact congrArg₂ _ hlater.objects (congrArg ([·]) heq)
  · exact forall_mem_concat hlater.objects_flat hflat

theorem self_relabel (hs : Mirrors loose Q c σ π s s') :
    s'.self = s.self.relabel σ ∧ s.self.IsFlat s.heap.cells.size :=
  hs.datum fun _ => rfl

theorem step_setItems (hv : Versions m m' c) (hs : Mirrors loose Q c σ π s s') {x : Operand}
    (hx : loose → s.owns x) (field : Option String) :
    Agree (SameAnswer loose Q c) (s.step m (.setItems x field))
      (s'.step m' (.setItems x field)) := by
  obtain ⟨hself, hflat⟩ := self_relabel hs
  obtain ⟨hdatum, hdflat⟩ := hs.datum hx
  have hset := hs.heap.setItems hv hflat hdflat field
  unfold step
  dsimp only
  rw [hself, hdatum]
  refine hset.map ?_
  rintro h h' ⟨σ₁, π₁, hl, hm⟩
  exact ⟨σ₁, π₁, hs.later hl hm, trivial, rfl⟩

theorem step_items_of_reaches (hs : Mirrors loose Q c σ π s s') {field : Option String}
    (hr : Agree (Heap.Reaches Q c σ s.heap) (s.heap.items m s.self field)
      (s'.heap.items m' s'.self field)) :
    Agree (SameAnswer loose Q c) (s.step m (.items field)) (s'.step m' (.items field)) := by
  refine hr.map ?_
  rintro ⟨h, d⟩ ⟨h', d'⟩ ⟨σ₁, π₁, hl, hm, hflat, heq⟩
  have hlater := hs.later hl hm
  refine ⟨σ₁, π₁, { hlater with given := ?_ }, hflat, heq⟩
  exact List.rel_append hlater.given (.cons ⟨hflat, Or.inl heq⟩ .nil)

theorem step_append_of_reaches (hs : Mirrors loose Q c σ π s s') {x : Operand}
    {field : Option String}
    (hr : Agree (Heap.ReachesHeap Q c σ s.heap) (s.heap.appendTo m s.self (s.datum x) field)
      (s'.heap.appendTo m' s'.self (s'.datum x) field)) :
    Agree (SameAnswer loose Q c) (s.step m (.append x field)) (s'.step m' (.append x field)) := by
  refine hr.map ?_
  rintro h h' ⟨σ₁, π₁, hl, hm⟩
  exact ⟨σ₁, π₁, hs.later hl hm, trivial, rfl⟩

/-! ### Containers at the start and at the first use -/

/-- A call does the same unless the first version makes containers. -/
theorem step_alike (hv : Versions m m' c) (hleave : m.LeavesAlike m')
    (hlate : ∀ p ∈ (m.decl c).properties, (m.prop p).instantiation ≠ some .eager)
    (hs : Mirrors False (IsNew m c) c σ π s s') (call : Call) :
    Agree (SameAnswer False (IsNew m c) c) (s.step m call) (s'.step m' call) := by
  cases call with
  | make kind xs => exact step_make hs kind nofun
  | create cls =>
    exact step_create hs
      (hs.heap.create hv hlate (fun _ _ => Heap.isNew_of_fresh hv hleave) cls)
  | items field =>
    obtain ⟨hself, hflat⟩ := self_relabel hs
    refine step_items_of_reaches hs ?_
    rw [hself]
    exact hs.heap.items hv hleave hflat field
  | setItems x field => exact step_setItems hv hs nofun field
  | append x field =>
    obtain ⟨hself, hflat⟩ := self_relabel hs
    obtain ⟨hdatum, hdflat⟩ := hs.datum (x := x) nofun
    refine step_append_of_reaches hs ?_
    rw [hself, hdatum]
    exact hs.heap.appendTo hv hleave hflat hdflat field

theorem next_mirrors (hs : Mirrors loose Q c σ π s s') {call : Call}
    (h : Agree (SameAnswer loose Q c) (s.step m call) (s'.step m' call)) :
    ∃ σ π, Mirrors loose Q c σ π (s.next m call) (s'.next m' call) := by
  unfold next
  generalize s.step m call = r, s'.step m' call = r' at h ⊢
  cases h with
  | error => exact ⟨σ, π, hs⟩
  | ok hr =>
    obtain ⟨σ₁, π₁, hs₁, -⟩ := hr
    exact ⟨σ₁, π₁, hs₁⟩

theorem answer_eq {call : Call}
    (h : Agree (SameAnswer loose Q c) (s.step m call) (s'.step m' call)) (depth : Nat) :
    s'.answer m' call depth = s.answer m call depth := by
  unfold answer
  generalize s.step m call = r, s'.step m' call = r' at h ⊢
  cases h with
  | error => rfl
  | @ok r r' hr =>
    obtain ⟨σ₁, π₁, hs₁, hflat, heq⟩ := hr
    have hseen : r'.1.heap.seen depth r'.2 = r.1.heap.seen depth r.2 := by
      rw [heq, hs₁.heap.seen_eq hflat]
    exact congrArg Except.ok hseen

theorem start_mirrors (hr : Heap.Reaches Q c id {}
    (({} : Heap).store (.object c (Instance.fresh m c)))
    (({} : Heap).store (.object c (Instance.fresh m' c)))) :
    ∃ σ π, Mirrors loose Q c σ π (start m c) (start m' c) := by
  obtain ⟨σ, π, -, hm, hflat, heq⟩ := hr
  refine ⟨σ, π, hm, ?_, rfl, .nil, ?_, nofun⟩
  · simp [start, heq]
  · intro d hd
    obtain rfl := List.mem_singleton.mp hd
    exact hflat

theorem after_concat (m : Model) (c : ClassId) (calls : List Call) (call : Call) :
    after m c (calls ++ [call]) = (after m c calls).next m call := by
  simp [after]

/-- After the same calls the callers have the same. -/
theorem after_alike (hv : Versions m m' c) (hleave : m.LeavesAlike m')
    (hlate : ∀ p ∈ (m.decl c).properties, (m.prop p).instantiation ≠ some .eager)
    (calls : List Call) :
    ∃ σ π, Mirrors False (IsNew m c) c σ π (after m c calls) (after m' c calls) := by
  induction calls using List.reverseRecOn with
  | nil =>
    exact start_mirrors
      ((Heap.isClosed_empty.mirror _ c).create hv hlate (fun _ _ => Heap.isNew_of_fresh hv hleave) c)
  | append_singleton calls call ih =>
    obtain ⟨σ, π, hs⟩ := ih
    rw [after_concat, after_concat]
    exact next_mirrors hs (step_alike hv hleave hlate hs call)

theorem isClosed_after (hn : (m.fields c).Nodup)
    (hlate : ∀ p ∈ (m.decl c).properties, (m.prop p).instantiation ≠ some .eager)
    (calls : List Call) : (after m c calls).heap.IsClosed := by
  obtain ⟨σ, π, hs⟩ := after_alike (.refl hn) (fun _ _ _ => Iff.rfl) hlate calls
  exact hs.heap.closed

end Caller
end Enfold
