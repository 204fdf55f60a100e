import Enfold.Proofs.Model.Built
import Enfold.Proofs.Model.Rename
import Enfold.Proofs.Pass.Synthesis

/-! # Who owns a property

Properties are moved between classes, taken out of them and listed in them, and they are wrapped,
also for candidates that have gone stale. Each call keeps lists and owners in step, so in every
model that calls lead to a property stands once in the list of its owner and in no other list. A
call that fails leaves all lists and owners as they were.
-/

namespace Enfold

namespace Model

variable {m m' : Model} {w : ClassId} {r : PropertyId} {k : Candidate} {plan : WrapperPlan}

structure SameOwnership (m m' : Model) : Prop where
  properties_eq : ∀ c, (m'.decl c).properties = (m.decl c).properties
  owner_eq : ∀ p, (m'.prop p).owner = (m.prop p).owner

theorem SameOwnership.refl (m : Model) : m.SameOwnership m := ⟨fun _ => rfl, fun _ => rfl⟩

theorem sameOwnership_addClass (m : Model) {e : ClassDecl} (he : e.properties = [])
    (parent : Option ClassId) : m.SameOwnership (m.addClass e parent).1 where
  properties_eq c := by
    by_cases hc : c.index = m.classes.size
    · obtain rfl := ClassId.eq_mk hc
      rw [decl_addClass_self, decl_of_size_le (c := ⟨m.classes.size⟩) (Nat.le_refl _)]
      cases parent <;> exact he
    · rw [decl_addClass_of_ne e parent hc]
  owner_eq _ := rfl

/-! ### Wrapping a property of any class -/

theorem relink_of_unowned (ho : (m.prop k.prop).owner = none) :
    m.relink k w plan = .error (.nowhereToMoveFrom (m.prop k.prop).name) := by
  rw [relink, moveProperty_of_unowned ho]
  rfl

theorem Linked.relink (hm : m.Linked) (hc : k.owner.index < m.classes.size)
    (hw : w.index < m.classes.size) (h : m.relink k w plan = .ok (m', r)) : m'.Linked := by
  cases ho : (m.prop k.prop).owner with
  | none =>
    rw [relink_of_unowned ho] at h
    cases h
  | some c =>
    have hfit := hm.fitted (hm.mem_iff_owner.mpr ho) hw plan.itemField
    have href := hfit.addReference (by simpa [setCollection] using hc) w plan.referenceField
      ((m.decl c).properties.idxOf k.prop)
    have hm' : _ = m' := congrArg Prod.fst (Except.ok.inj ((relink_of_owner hm ho).symm.trans h))
    rw [← hm']
    exact href

theorem Linked.implementWrapper (hm : m.Linked) (c w : ClassId) (r : PropertyId) :
    (m.implementWrapper c w r).Linked := by
  unfold Model.implementWrapper
  split
  · exact hm
  · apply Linked.modifyFactory
    apply Linked.modifyProperty
    · exact hm.modifyClass fun _ => ⟨rfl, rfl, rfl⟩
    · exact fun _ => rfl

theorem Linked.listInEpisode (hm : m.Linked) (c : ClassId) : (m.listInEpisode c).Linked :=
  hm.congr (fun _ => ⟨rfl, rfl⟩) (fun _ => rfl) fun _ => rfl

end Model

/-! ### Any candidate -/

namespace Candidate

open PassM

variable {k : Candidate} {n : Naming} {s : PassState} {m m' : Model} {w : ClassId}
  {plan : WrapperPlan} {failed : Bool}

theorem run_dropInherited_of_unowned (ho : (s.model.prop k.prop).owner = none) :
    (k.dropInherited w).run s =
      .error (.ownership (.nowhereToDeleteFrom (s.model.prop k.prop).name)) s := by
  unfold dropInherited
  change (require id (.ok _ : Except Failure Record) >>= _ : PassM Record).run s = _
  rw [run_require_ok_bind, run_get_bind, Model.deleteProperty, ho]
  exact run_require_error_bind ..

theorem run_wrap_of_unlinked {e : OwnershipError}
    (h : (s.model.addWrapper k plan).1.relink k ⟨s.model.classes.size⟩ plan = .error e) :
    (k.wrap plan).run s =
      .error (.ownership e) { s with model := (s.model.addWrapper k plan).1 } := by
  unfold wrap
  rw [run_get_bind]
  dsimp only
  rw [run_setModel_bind]
  change (require id (.ok _ : Except Failure Record) >>= _ : PassM Record).run _ = _
  rw [run_require_ok_bind, Model.snd_addWrapper, h, run_require_error_bind]

/-- The model that synthesis ends with, if it failed and if it did not. -/
inductive Leaves (k : Candidate) (m : Model) : (failed : Bool) → Model → Prop where
  | unchanged : Leaves k m true m
  | alone {plan : WrapperPlan} : m.Fits k plan → Leaves k m true (m.addWrapper k plan).1
  | dropped {c : ClassId} : k.prop ∈ (m.decl c).properties →
    Leaves k m false (m.unlink c k.prop)
  | wrapped {plan : WrapperPlan} {m' : Model} {w : ClassId} {r : PropertyId} : m.Fits k plan →
    w = ⟨m.classes.size⟩ → (m.addWrapper k plan).1.relink k w plan = .ok (m', r) →
    Leaves k m false ((m'.implementWrapper k.owner w r).listInEpisode w)

theorem synthesize_leaves (hm : s.model.Linked) (k : Candidate) (n : Naming) :
    (∀ record t, (k.synthesize n).run s = .ok record t → k.Leaves s.model false t.model) ∧
      ∀ e t, (k.synthesize n).run s = .error e t → k.Leaves s.model true t.model := by
  simp only [synthesize, run_get_bind]
  cases k.inherited? s with
  | some w =>
    dsimp only
    cases ho : (s.model.prop k.prop).owner with
    | none =>
      rw [run_dropInherited_of_unowned ho]
      constructor <;> rintro _ _ ⟨⟩
      exact .unchanged
    | some c =>
      have hc := hm.mem_iff_owner.mpr ho
      rw [run_dropInherited hm hc]
      constructor <;> rintro _ _ ⟨⟩
      exact .dropped hc
  | none =>
    dsimp only
    rw [EStateM.run_bind]
    cases hp : (k.plan n).run s with
    | error e u =>
      have hu := (plan_keeps PassState.model (fun _ _ => rfl) k n).of_error hp
      constructor <;> rintro _ _ ⟨⟩
      exact hu ▸ .unchanged
    | ok plan u =>
      obtain ⟨hu, hplan⟩ := plan_ok hp
      rw [← hu] at hplan ⊢
      dsimp only
      cases hr : (u.model.addWrapper k plan).1.relink k ⟨u.model.classes.size⟩ plan with
      | error e =>
        rw [run_wrap_of_unlinked hr]
        constructor <;> rintro _ _ ⟨⟩
        exact .alone hplan.fits
      | ok x =>
        rw [run_wrap_of_relink hr]
        constructor <;> rintro _ _ ⟨⟩
        exact .wrapped hplan.fits rfl hr

theorem Leaves.linked (h : k.Leaves m failed m') (hm : m.Linked)
    (hc : k.owner.index < m.classes.size) : m'.Linked := by
  cases h with
  | unchanged => exact hm
  | alone hf => exact hm.addWrapper hf hc
  | dropped hp => exact hm.unlink hp
  | @wrapped plan m' w r hf hw hr =>
    subst hw
    have hsize : (m.addWrapper k plan).1.classes.size = m.classes.size + 1 :=
      Model.size_addClass _ _
    have hl : m'.Linked := by
      apply (hm.addWrapper hf hc).relink _ _ hr
      · rw [hsize]
        omega
      · simp [hsize]
    exact (hl.implementWrapper _ _ _).listInEpisode _

theorem Leaves.sameOwnership (h : k.Leaves m true m') : m.SameOwnership m' := by
  cases h with
  | unchanged => exact .refl m
  | alone => exact Model.sameOwnership_addClass m rfl _

end Candidate

/-! ### Calls -/

/-- A call that may change classes, properties, or which class has which property. -/
inductive Edit where
  /-- Makes a property that no class owns. -/
  | newProperty (x : Property)
  | addClass (d : ClassDecl) (parent : Option ClassId)
  | move (p : PropertyId) (target : ClassId) (field : Option String)
  | delete (p : PropertyId)
  | remove (c : ClassId) (p : PropertyId)
  | insert (c : ClassId) (i : Int) (p : PropertyId)
  | attach (c : ClassId) (p : PropertyId)
  | rename (c : ClassId) (name : String)
  /-- Deals with a candidate as a pass in some state does. -/
  | synthesize (n : Naming) (s : PassState) (k : Candidate)

namespace Edit

variable {m : Model} {e : Edit} {x : Failure}

/-- Takes over the model that a call has made, unless it fails. -/
def taking (m : Model) : Except OwnershipError (Model × Nat) → Except Failure (Option Nat) × Model
  | .ok (m', i) => (.ok (some i), m')
  | .error e => (.error (.ownership e), m)

def run (m : Model) : Edit → Except Failure (Option Nat) × Model
  | newProperty x => (.ok none, (m.newProperty x).1)
  | addClass d parent => (.ok none, (m.addClass d parent).1)
  | move p target field => taking m (m.moveProperty p target field)
  | delete p => taking m (m.deleteProperty p)
  | remove c p => taking m (m.removeProperty c p)
  | insert c i p => (.ok none, m.insertProperty c i p)
  | attach c p => (.ok none, m.attachProperty c p)
  | rename c name => (.ok none, m.renameClass c name)
  | synthesize n s k =>
    match (k.synthesize n).run { s with model := m } with
    | .ok _ t => (.ok none, t.model)
    | .error e t => (.error e, t.model)

/-- The call names what is there, and lists anew what no class owns. -/
def Fits (m : Model) : Edit → Prop
  | newProperty x => x.owner = none
  | addClass d parent => d.properties = [] ∧ ∀ c ∈ parent, c.index < m.classes.size
  | move _ target _ => target.index < m.classes.size
  | insert c _ p | attach c p =>
    c.index < m.classes.size ∧ p.index < m.properties.size ∧ (m.prop p).owner = none
  | synthesize _ _ k => k.owner.index < m.classes.size
  | delete _ | remove _ _ | rename _ _ => True

theorem taking_of_error {r : Except OwnershipError (Model × Nat)}
    (h : (taking m r).1 = .error x) : (taking m r).2 = m := by
  cases r with
  | error => rfl
  | ok => cases h

/-- A call keeps lists and owners in step, whether it succeeds or not. -/
theorem linked_run (hm : m.Linked) (he : e.Fits m) : (e.run m).2.Linked := by
  cases e with
  | newProperty x => exact hm.newProperty he
  | addClass d parent => exact hm.addClass he.1 he.2
  | move p target field =>
    rw [run]
    cases ho : (m.prop p).owner with
    | none =>
      rw [Model.moveProperty_of_unowned ho]
      exact hm
    | some c =>
      rw [Model.moveProperty_of_owner hm ho]
      exact hm.shift (hm.mem_iff_owner.mpr ho) he _
  | delete p =>
    rw [run]
    cases ho : (m.prop p).owner with
    | none =>
      rw [Model.deleteProperty, ho]
      exact hm
    | some c =>
      have hp := hm.mem_iff_owner.mpr ho
      rw [Model.deleteProperty_of_mem hm hp]
      exact hm.unlink hp
  | remove c p =>
    rw [run]
    by_cases hp : p ∈ (m.decl c).properties
    · rw [Model.removeProperty_of_mem hp]
      exact hm.unlink hp
    · rw [Model.removeProperty_of_notMem hp]
      exact hm
  | insert c i p => exact hm.insertProperty he.1 he.2.1 he.2.2 i
  | attach c p => exact hm.attachProperty he.1 he.2.1 he.2.2
  | rename c name => exact (m.relabelled_renameClass c name).linked hm
  | synthesize n s k =>
    obtain ⟨hok, herror⟩ := Candidate.synthesize_leaves (s := { s with model := m }) hm k n
    rw [run]
    cases h : (k.synthesize n).run { s with model := m } with
    | ok record t => exact (hok record t h).linked hm he
    | error x t => exact (herror x t h).linked hm he

theorem sameOwnership_of_error (hm : m.Linked) (h : (e.run m).1 = .error x) :
    m.SameOwnership (e.run m).2 := by
  cases e with
  | newProperty | addClass | insert | attach | rename => cases h
  | move | delete | remove =>
    rw [run] at h ⊢
    rw [taking_of_error h]
    exact .refl m
  | synthesize n s k =>
    obtain ⟨-, herror⟩ := Candidate.synthesize_leaves (s := { s with model := m }) hm k n
    rw [run] at h ⊢
    cases hr : (k.synthesize n).run { s with model := m } with
    | ok record t =>
      rw [hr] at h
      cases h
    | error y t => exact (herror y t hr).sameOwnership

end Edit

namespace Model

variable {m : Model}

/-- The models that calls lead to from a model that was described. -/
inductive Reached : Model → Prop where
  | described {v : Value} {m : Model} : ofValue v = .ok m → Reached m
  | edited {m : Model} {e : Edit} : Reached m → e.Fits m → Reached (e.run m).2

theorem Reached.linked (h : m.Reached) : m.Linked := by
  induction h with
  | described hv => exact (described_ofValue hv).toLinked
  | edited _ he ih => exact Edit.linked_run ih he

theorem Linked.count_properties (hm : m.Linked) (c : ClassId) (p : PropertyId) :
    (m.decl c).properties.count p = if (m.prop p).owner = some c then 1 else 0 := by
  rw [(hm.nodup c).count]
  simp only [hm.mem_iff_owner]

theorem Linked.run_move (hm : m.Linked) {c w : ClassId} {p : PropertyId}
    (ho : (m.prop p).owner = some c) (hw : w.index < m.classes.size) (field : Option String) :
    ∃ i m', (Edit.move p w field).run m = (.ok (some i), m') ∧
      (m.decl c).properties[i]? = some p ∧ (m'.prop p).owner = some w ∧
      (∀ q, q ≠ p → m'.prop q = m.prop q) ∧
      ∀ d, (m'.decl d).properties =
        (m.decl d).properties.erase p ++ if d = w then [p] else [] := by
  have hp := hm.mem_iff_owner.mpr ho
  have hprop (q) := prop_shift (c := c) (w := w) (q := q) (hm.lt_of_mem hp) (field.getD "")
  exists (m.decl c).properties.idxOf p, m.shift c p w (field.getD "")
  constructor
  · rw [Edit.run, moveProperty_of_owner hm ho]
    rfl
  constructor
  · exact List.getElem?_idxOf hp
  constructor
  · simp [hprop]
  constructor
  · intro q hq
    simp [hprop, hq]
  · exact properties_shift hm hp hw _

/-- In every model that calls lead to, a property stands once in the list of its owner and in no
other. -/
theorem ownership_of_reached (h : m.Reached) :
    (∀ c p, (m.decl c).properties.count p = if (m.prop p).owner = some c then 1 else 0) ∧
    (∀ (e : Edit) x, (e.run m).1 = .error x → m.SameOwnership (e.run m).2) ∧
    ∀ p w field, w.index < m.classes.size →
      ((m.prop p).owner = none → (Edit.move p w field).run m =
        (.error (.ownership (.nowhereToMoveFrom (m.prop p).name)), m)) ∧
      ∀ c, (m.prop p).owner = some c → ∃ i m', (Edit.move p w field).run m = (.ok (some i), m') ∧
        (m.decl c).properties[i]? = some p ∧ (m'.prop p).owner = some w ∧
        (∀ q, q ≠ p → m'.prop q = m.prop q) ∧
        ∀ d, (m'.decl d).properties =
          (m.decl d).properties.erase p ++ if d = w then [p] else [] := by
  have hm := h.linked
  constructor
  · exact hm.count_properties
  constructor
  · intro e x hx
    exact Edit.sameOwnership_of_error hm hx
  · intro p w field hw
    constructor
    · intro ho
      rw [Edit.run, moveProperty_of_unowned ho]
      rfl
    · intro c ho
      exact hm.run_move ho hw field

/-- A class with a list between two other properties, and one without any. -/
def oneList : Value := .object [("package", .text "pub"), ("classes", .list [
  .object [("name", .text "Source"), ("properties", .list [
    .object [("name", .text "a")],
    .object [("name", .text "b"), ("repeated", .bool true)],
    .object [("name", .text "c")]])],
  .object [("name", .text "Target")]])]

def wrapSecond : Edit := .synthesize {} { model := {} } ⟨⟨0⟩, ⟨1⟩, {}, "pub.Source.b"⟩

def wrapFirst : Edit := .synthesize {} { model := {} } ⟨⟨0⟩, ⟨0⟩, {}, "pub.Source.a"⟩

theorem ownership_of_oneList : ∃ m m₁ m₂ x, ofValue oneList = .ok m ∧
    wrapSecond.run m = (.ok none, m₁) ∧
    (∀ c p, (m₁.decl c).properties.count p = if (m₁.prop p).owner = some c then 1 else 0) ∧
    (m₁.decl ⟨0⟩).properties = [⟨0⟩, ⟨3⟩, ⟨2⟩] ∧ (m₁.decl ⟨2⟩).properties = [⟨1⟩] ∧
    (∃ i m', (Edit.move ⟨3⟩ ⟨1⟩ none).run m₁ = (.ok (some i), m') ∧
      (m₁.decl ⟨0⟩).properties[i]? = some ⟨3⟩ ∧ (m'.prop ⟨3⟩).owner = some ⟨1⟩ ∧
      (m'.decl ⟨0⟩).properties = [⟨0⟩, ⟨2⟩] ∧ (m'.decl ⟨1⟩).properties = [⟨3⟩]) ∧
    (Edit.delete ⟨0⟩).run m₁ = (.ok (some 0), m₂) ∧
    (Edit.move ⟨0⟩ ⟨1⟩ none).run m₂ = (.error (.ownership (.nowhereToMoveFrom "a")), m₂) ∧
    (wrapFirst.run m₂).1 = .error x ∧ m₂.SameOwnership (wrapFirst.run m₂).2 := by
  have h : ((ofValue oneList).toOption.any fun m =>
      let m₁ := (wrapSecond.run m).2
      let m₂ := ((Edit.delete ⟨0⟩).run m₁).2
      ((wrapSecond.run m).1.toOption = some none ∧
        ((Edit.delete ⟨0⟩).run m₁).1.toOption = some (some 0) ∧
        (wrapFirst.run m₂).1.toOption = none) ∧
      (0 < m.classes.size ∧ 1 < m₁.classes.size ∧ 1 < m₂.classes.size) ∧
      (m₁.decl ⟨0⟩).properties = [⟨0⟩, ⟨3⟩, ⟨2⟩] ∧ (m₁.decl ⟨1⟩).properties = [] ∧
      (m₁.decl ⟨2⟩).properties = [⟨1⟩] ∧ (m₁.prop ⟨3⟩).owner = some ⟨0⟩ ∧
      (m₂.prop ⟨0⟩).owner = none ∧ (m₂.prop ⟨0⟩).name = "a") = true := by decide +kernel
  obtain ⟨m, hm, h⟩ := (Option.any_eq_true _ _).mp h
  obtain ⟨⟨h₁, h₂, h₃⟩, ⟨hs, hs₁, hs₂⟩, hl₀, hl₁, hl₂, ho, hnone, hname⟩ := of_decide_eq_true h
  have hm := toOption_eq_some.mp hm
  have reached₁ : (wrapSecond.run m).2.Reached := .edited (.described hm) hs
  have reached₂ := Reached.edited (e := .delete ⟨0⟩) reached₁ trivial
  obtain ⟨hcount, -, hmove⟩ := ownership_of_reached reached₁
  obtain ⟨-, hfail, hstay⟩ := ownership_of_reached reached₂
  obtain ⟨i, m', hrun, hi, hm', -, hlists⟩ := (hmove ⟨3⟩ ⟨1⟩ none hs₁).2 ⟨0⟩ ho
  cases hx : (wrapFirst.run ((Edit.delete ⟨0⟩).run (wrapSecond.run m).2).2).1 with
  | ok =>
    rw [hx] at h₃
    cases h₃
  | error x =>
    have hstay := (hstay ⟨0⟩ ⟨1⟩ none hs₂).1 hnone
    rw [hname] at hstay
    refine ⟨m, (wrapSecond.run m).2, ((Edit.delete ⟨0⟩).run (wrapSecond.run m).2).2, x, hm,
      Prod.ext (toOption_eq_some.mp h₁) rfl, hcount, hl₀, hl₂, ⟨i, m', hrun, hi, hm', ?_, ?_⟩,
      Prod.ext (toOption_eq_some.mp h₂) rfl, hstay, hx, hfail wrapFirst x hx⟩
    · rw [hlists, hl₀]
      decide
    · rw [hlists, hl₁]
      decide

end Model
end Enfold
