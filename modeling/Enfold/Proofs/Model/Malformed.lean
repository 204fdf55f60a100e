import Enfold.Proofs.Model.Entries

/-! # What is wrong with a description

A class or a property without a name and a kind of content that no one knows are looked for as a
description is read, and they are reported. Nothing looks for a value of another shape than the one
that is read there: whatever is done with it fails. Which of the two comes of a description is seen
from its parts, in the order in which they are read.
-/

namespace Enfold

/-- The error says what is wrong with a description. -/
def DescriptionError.isReport : DescriptionError → Bool
  | misuse _ | unlettered => false
  | _ => true

namespace Description

open Raw

/-! ### Parts and their faults -/

/-- What is looked at in one step as a description is read. -/
inductive Part where
  | episode (v : Value)
  /-- An entry for a class or a property, which should be an object with a name. -/
  | entry (v : Value)
  /-- The kind of content of a property. -/
  | kind (ms : Members)
  /-- A value that holds entries. -/
  | run (v : Value)
  | substitutes (v : Value)

inductive Fault where
  | reported
  /-- No one looks for it, and another error comes of it. -/
  | escaping
  deriving DecidableEq, Repr

def Fault.Shows : Fault → DescriptionError → Prop
  | reported, e => e.isReport
  | escaping, e => ∃ k, e = .misuse k

def memberIs (test : Value → Bool) (name : String) (ms : Members) : Bool :=
  (Assoc.get? name ms).all test

def isKind (v : Value) : Bool := (v.asText?.bind ContentKind.ofName?).isSome

/-- What is no object has no name, as long as none can be found in it. -/
def entryFault? : Value → Option Fault
  | .object ms => if (Assoc.get? "name" ms).isSome then none else some .reported
  | .text s => some (if Text.occursIn "name".toList s.toList then .escaping else .reported)
  | .list xs => some (if xs.any fun x => x.asText? = some "name" then .escaping else .reported)
  | _ => some .escaping

def Part.fault? : Part → Option Fault
  | episode v => if (v.items?.getD []).all Value.isKey then none else some .escaping
  | entry v => entryFault? v
  | kind ms => if memberIs isKind "kind" ms then none else some .reported
  | run v => if v.parts?.isSome then none else some .escaping
  | substitutes v => if v.toPairs.isOk then none else some .escaping

/-- The fault of the first part that has one. -/
def firstFault? (ps : List Part) : Option Fault := ps.findSome? Part.fault?

def propertyParts : Value → List Part
  | .object ms => [.entry (.object ms), .kind ms, .substitutes (substitutesMember ms)]
  | v => [.entry v]

def propertyValues (ms : Members) : List Value := (propertiesMember ms).parts?.getD []

def entryParts : Value → List Part
  | .object ms => .entry (.object ms) :: .run (propertiesMember ms) ::
    ((propertyValues ms).flatMap propertyParts ++ [.run (nestedMember ms)])
  | v => [.entry v]

def packageOf (v : Value) : Option String :=
  ((v.member? "package").map Value.asText?).getD (some "")

def listed (v : Value) : List Listing := listings (.top (packageOf v)) 0 ((classesOf v).getD [])

def episodeMember (v : Value) : Value := (v.member? "episode").getD .null

/-- The parts of a description that lists classes. -/
def partsOf (v : Value) : List Part :=
  .episode (episodeMember v) :: (listed v).flatMap fun l => entryParts l.entry

/-! ### What a reading says about the parts that it reads -/

/-- A reading shows the first fault of its parts, or succeeds without any. -/
structure Verdict (ps : List Part) {α : Type} (x : Except DescriptionError α) : Prop where
  of_none : firstFault? ps = none → ∃ a, x = .ok a
  of_some : ∀ f, firstFault? ps = some f → ∃ e, x = .error e ∧ f.Shows e

theorem firstFault?_append (ps qs : List Part) :
    firstFault? (ps ++ qs) = (firstFault? ps).or (firstFault? qs) := List.findSome?_append

theorem firstFault?_singleton (p : Part) : firstFault? [p] = p.fault? := by
  unfold firstFault?
  rw [List.findSome?_cons]
  cases p.fault? <;> rfl

namespace Verdict

variable {α β : Type} {ps qs : List Part} {x : Except DescriptionError α}

theorem pure (a : α) : Verdict [] (.ok a : Except DescriptionError α) :=
  ⟨fun _ => ⟨a, rfl⟩, nofun⟩

theorem ok {p : Part} (h : p.fault? = none) (a : α) :
    Verdict [p] (.ok a : Except DescriptionError α) := by
  refine ⟨fun _ => ⟨a, rfl⟩, fun f hf => ?_⟩
  rw [firstFault?_singleton, h] at hf
  cases hf

theorem error {p : Part} {f : Fault} {e : DescriptionError} (h : p.fault? = some f)
    (he : f.Shows e) : Verdict [p] (.error e : Except DescriptionError α) := by
  constructor
  · intro hnone
    rw [firstFault?_singleton, h] at hnone
    cases hnone
  · intro f' hf
    rw [firstFault?_singleton, h] at hf
    cases hf
    exact ⟨e, rfl, he⟩

/-- Of two readings one after the other, the second counts where the first succeeds. -/
theorem bind {f : α → Except DescriptionError β} (h : Verdict ps x)
    (hf : ∀ a, x = .ok a → Verdict qs (f a)) : Verdict (ps ++ qs) (x >>= f) := by
  cases hps : firstFault? ps with
  | none =>
    obtain ⟨a, rfl⟩ := h.of_none hps
    have hqs : firstFault? (ps ++ qs) = firstFault? qs := by
      rw [firstFault?_append, hps, Option.none_or]
    exact ⟨fun hnone => (hf a rfl).of_none (hqs ▸ hnone),
      fun f' hf' => (hf a rfl).of_some f' (hqs ▸ hf')⟩
  | some f₀ =>
    obtain ⟨e, rfl, he⟩ := h.of_some f₀ hps
    have hqs : firstFault? (ps ++ qs) = some f₀ := by
      rw [firstFault?_append, hps, Option.some_or]
    constructor
    · intro hnone
      rw [hqs] at hnone
      cases hnone
    · intro f' hf'
      rw [hqs] at hf'
      cases hf'
      exact ⟨e, rfl, he⟩

theorem map (h : Verdict ps x) (f : α → β) : Verdict ps (x.map f) := by
  constructor
  · intro hnone
    obtain ⟨a, rfl⟩ := h.of_none hnone
    exact ⟨f a, rfl⟩
  · intro f' hf
    obtain ⟨e, rfl, he⟩ := h.of_some f' hf
    exact ⟨e, rfl, he⟩

theorem bind_ok (h : Verdict ps x) (f : α → β) : Verdict ps (x >>= fun a => .ok (f a)) := by
  have := h.map f
  cases x <;> exact this

theorem of_map {f : α → β} (h : Verdict ps (x.map f)) : Verdict ps x := by
  constructor
  · intro hnone
    obtain ⟨b, hb⟩ := h.of_none hnone
    obtain ⟨a, ha, -⟩ := exceptMap_eq_ok.mp hb
    exact ⟨a, ha⟩
  · intro f' hf
    obtain ⟨e, he, hshows⟩ := h.of_some f' hf
    cases x with
    | error e' => exact ⟨e', rfl, by cases he; exact hshows⟩
    | ok a => cases he

theorem mapM {parts : α → List Part} {f : α → Except DescriptionError β} {l : List α}
    (h : ∀ a ∈ l, Verdict (parts a) (f a)) : Verdict (l.flatMap parts) (l.mapM f) := by
  induction l with
  | nil => exact pure _
  | cons a l ih =>
    rw [List.mapM_cons, List.flatMap_cons]
    rw [List.forall_mem_cons] at h
    exact h.1.bind fun _ _ => (ih h.2).map _

theorem forM {parts : α → List Part} {f : α → Except DescriptionError Unit} {l : List α}
    (h : ∀ a ∈ l, Verdict (parts a) (f a)) : Verdict (l.flatMap parts) (forM l f) := by
  induction l with
  | nil => exact pure _
  | cons a l ih =>
    rw [List.forM_cons, List.flatMap_cons]
    rw [List.forall_mem_cons] at h
    exact h.1.bind fun _ _ => ih h.2

end Verdict

/-! ### The verdicts of the reader -/

theorem verdict_refuse {α : Type} {nameless : DescriptionError} (hn : nameless.isReport)
    (lookup : Misuse) {v : Value} (hv : ∀ ms, v = .object ms → False) :
    Verdict [.entry v] (refuse nameless lookup v : Except _ α) := by
  cases v with
  | object ms => exact (hv ms rfl).elim
  | text | list =>
    unfold refuse
    dsimp only
    split
    · next h =>
      exact .error (f := .escaping) (by simp only [Part.fault?, entryFault?, h, if_true]) ⟨_, rfl⟩
    · next h => exact .error (f := .reported) (by simp only [Part.fault?, entryFault?, h]; rfl) hn
  | null | bool | int | decimal => exact .error (f := .escaping) rfl ⟨_, rfl⟩

theorem verdict_nameMember {nameless : DescriptionError} (hn : nameless.isReport) (ms : Members) :
    Verdict [.entry (.object ms)] (nameMember nameless ms) := by
  unfold nameMember
  split
  · next h => exact .ok (by simp [Part.fault?, entryFault?, h]) _
  · next h => exact .error (f := .reported) (by simp [Part.fault?, entryFault?, h]) hn

theorem verdict_kindOf (owner name : String) (ms : Members) :
    Verdict [.kind ms] (kindOf owner name ms) := by
  unfold kindOf
  split
  · next h => exact .ok (by simp [Part.fault?, memberIs, h]) _
  · next v h =>
    split
    · next k hk => exact .ok (by simp [Part.fault?, memberIs, isKind, h, hk]) _
    · next hk => exact .error (f := .reported) (by simp [Part.fault?, memberIs, isKind, h, hk]) rfl

theorem verdict_entries (v : Value) : Verdict [.run v] (entries v) := by
  unfold entries
  split
  · next h => exact .ok (by simp [Part.fault?, h]) _
  · next h => exact .error (f := .escaping) (by simp [Part.fault?, h]) ⟨_, rfl⟩

theorem verdict_substitutes (v : Value) :
    Verdict [.substitutes v] (v.toPairs.mapError DescriptionError.misuse) := by
  cases h : v.toPairs with
  | ok es => exact .ok (by simp [Part.fault?, h, Except.isOk, Except.toBool]) _
  | error k =>
    exact .error (f := .escaping) (by simp [Part.fault?, h, Except.isOk, Except.toBool]) ⟨k, rfl⟩

theorem verdict_property (owner : String) (v : Value) :
    Verdict (propertyParts v) (Raw.property owner v) := by
  unfold Raw.property
  split
  · next ms =>
    exact (verdict_nameMember rfl ms).bind fun name _ => (verdict_kindOf owner name.plain ms).bind
      fun _ _ => (verdict_substitutes (substitutesMember ms)).bind_ok _
  · next hv =>
    rw [propertyParts.eq_2 v hv]
    exact verdict_refuse rfl _ hv

theorem propertyValues_eq {ms : Members} {parts : List Value}
    (h : entries (propertiesMember ms) = .ok parts) : propertyValues ms = parts := by
  unfold entries at h
  unfold propertyValues
  split at h
  · next hp => cases h; rw [hp, Option.getD_some]
  · cases h

theorem verdict_properties {ms : Members} {parts : List Value}
    (h : entries (propertiesMember ms) = .ok parts) (owner : String) :
    Verdict ((propertyValues ms).flatMap propertyParts) (parts.mapM (Raw.property owner)) := by
  rw [propertyValues_eq h]
  exact .mapM fun v _ => verdict_property owner v

theorem verdict_classEntry (ms : Members) : Verdict (.entry (.object ms) ::
    .run (propertiesMember ms) :: (propertyValues ms).flatMap propertyParts) (classEntry ms) :=
  (verdict_nameMember rfl ms).bind fun name _ => (verdict_entries (propertiesMember ms)).bind
    fun _ hparts => (verdict_properties hparts name.plain).bind_ok _

theorem verdict_check (v : Value) : Verdict (entryParts v) (check v) := by
  unfold check
  split
  · next ms =>
    exact (verdict_classEntry ms).bind fun _ _ => (verdict_entries (nestedMember ms)).bind_ok _
  · next hv =>
    rw [entryParts.eq_2 v hv]
    exact verdict_refuse rfl _ hv

/-! ### Descriptions that are read -/

theorem verdict_episodeOf (v : Value) : Verdict [.episode v] (episodeOf v) := by
  unfold episodeOf
  split
  · exact .ok rfl _
  · next refs =>
    split
    · next h => exact .ok (by simp only [Part.fault?, Value.items?, Option.getD_some, h, if_true]) _
    · next h =>
      have hfault : Part.fault? (.episode (.list refs)) = some .escaping := by
        simp only [Part.fault?, Value.items?, Option.getD_some, h]
        rfl
      exact .error hfault ⟨_, rfl⟩
  · next h => exact .ok (by cases v <;> simp_all [Part.fault?, Value.items?]) _

theorem verdict_trees (s : Scope) (place : Nat) (vs : List Value) :
    Verdict ((listings s place vs).flatMap fun l => entryParts l.entry) (trees vs) := by
  -- Trees are read as their list is checked, but that what was read is kept.
  have h := Verdict.forM (l := listings s place vs) fun l _ => verdict_check l.entry
  rw [← trees_eq s place vs] at h
  exact h.of_map

theorem verdict_ofValue {v : Value} {classes : List Value} (hc : classesOf v = some classes) :
    Verdict (partsOf v) (Raw.Description.ofValue v) := by
  unfold Raw.Description.ofValue partsOf listed
  rw [hc]
  exact (verdict_episodeOf _).bind fun _ _ => (verdict_trees _ _ classes).bind_ok _

end Description

open Description

namespace Raw

theorem unknownBase_of_mapM_basePlace {nodes ns : List Node} {e : DescriptionError}
    (h : ns.mapM (basePlace nodes) = .error e) : ∃ base name, e = .unknownBase base name := by
  induction ns with
  | nil => cases h
  | cons n ns ih =>
    rw [List.mapM_cons] at h
    cases hn : basePlace nodes n with
    | ok place =>
      rw [hn] at h
      cases hns : ns.mapM (basePlace nodes) with
      | ok places => rw [hns] at h; cases h
      | error e' => rw [hns] at h; cases h; exact ih hns
    | error e' =>
      rw [hn] at h
      cases h
      unfold basePlace at hn
      split at hn
      · split at hn
        · cases hn
        · cases hn; exact ⟨_, _, rfl⟩
      · cases hn

namespace Graph

theorem ofValue_of_error {v : Value} {e : DescriptionError}
    (h : Raw.Description.ofValue v = .error e) : ofValue v = .error e := by
  rw [ofValue, h]
  rfl

theorem ofValue_of_ok {v : Value} {d : Raw.Description} (h : Raw.Description.ofValue v = .ok d) :
    ofValue v = (d.nodes.mapM (basePlace d.nodes)).map fun bases => { d with bases } := by
  rw [ofValue, h]
  change (d.nodes.mapM (basePlace d.nodes)).bind _ = _
  cases d.nodes.mapM (basePlace d.nodes) <;> rfl

theorem description_of_ofValue {v : Value} {g : Graph} (h : ofValue v = .ok g) :
    Raw.Description.ofValue v = .ok g.toDescription := by
  obtain ⟨d, hd, -⟩ := exceptBind_eq_ok.mp h
  rw [ofValue_of_ok hd] at h
  obtain ⟨bases, -, rfl⟩ := exceptMap_eq_ok.mp h
  exact hd

theorem ok_or_unknownBase {v : Value} {d : Raw.Description}
    (h : Raw.Description.ofValue v = .ok d) :
    (∃ g, ofValue v = .ok g) ∨ ∃ base name, ofValue v = .error (.unknownBase base name) := by
  rw [ofValue_of_ok h]
  cases hb : d.nodes.mapM (basePlace d.nodes) with
  | ok bases => exact Or.inl ⟨_, rfl⟩
  | error e =>
    obtain ⟨base, name, rfl⟩ := unknownBase_of_mapM_basePlace hb
    exact Or.inr ⟨base, name, rfl⟩

/-- The first fault among the parts settles what comes of a value. -/
theorem ofValue_of_firstFault (v : Value) :
    (classesOf v = none → ofValue v = .error .noClassList) ∧
    ∀ classes, classesOf v = some classes →
      (firstFault? (partsOf v) = none → (∃ g, ofValue v = .ok g) ∨
        ∃ base name, ofValue v = .error (.unknownBase base name)) ∧
      (firstFault? (partsOf v) = some .reported → ∃ e, ofValue v = .error e ∧ e.isReport) ∧
      (firstFault? (partsOf v) = some .escaping → ∃ k, ofValue v = .error (.misuse k)) := by
  constructor
  · intro hc
    apply ofValue_of_error
    rw [Raw.Description.ofValue, hc]
  intro classes hc
  have hverdict := verdict_ofValue hc
  refine ⟨fun hnone => ?_, fun hsome => ?_, fun hsome => ?_⟩
  · obtain ⟨d, hd⟩ := hverdict.of_none hnone
    exact ok_or_unknownBase hd
  · obtain ⟨e, he, hshows⟩ := hverdict.of_some _ hsome
    exact ⟨e, ofValue_of_error he, hshows⟩
  · obtain ⟨e, he, k, rfl⟩ := hverdict.of_some _ hsome
    exact ⟨k, ofValue_of_error he⟩

/-- The second class has nothing where its properties should be. -/
def missingProperties : Value :=
  .object [("package", "shop"), ("classes", .list [.object [("name", "Order")],
    .object [("name", "Item"), ("properties", .null)]])]

theorem misuse_of_missingProperties : firstFault? (partsOf missingProperties) = some .escaping ∧
    ∃ k, ofValue missingProperties = .error (.misuse k) := by
  have h : firstFault? (partsOf missingProperties) = some .escaping := by decide +kernel
  exact ⟨h, ((ofValue_of_firstFault missingProperties).2 _ rfl).2.2 h⟩

/-- What no one reports comes of nothing in the place of a class. -/
theorem unreported_null_class :
    ¬∀ v, (∃ g, ofValue v = .ok g) ∨ ∃ e, ofValue v = .error e ∧ e.isReport := by
  have hnull : ofValue (.object [("package", "shop"), ("classes", .list [.null])]) =
      .error (.misuse .wrongKind) := rfl
  intro h
  rcases h _ with ⟨g, hg⟩ | ⟨e, he, hr⟩
  · exact absurd (hnull.symm.trans hg) nofun
  · cases hnull.symm.trans he
    cases hr

end Graph
end Raw
end Enfold
