import Enfold.Proofs.Binding.Held
import Enfold.Proofs.Binding.Returned
import Enfold.Proofs.Pass.Lockstep
import Enfold.Proofs.Pass.Precedence

/-! # What a run makes of options for holding items

The collection of wrapped fields, its interface and the mode of its making are options of their
own. Two runs that differ in no others fail alike, or build models that differ in nothing but the
fields of wrappers. Documents do not tell those models apart, as long as no two values share a field
and the runs of text in mixed content are kept where they are looked for.
-/

namespace Enfold

open Binding

variable {m m' : Model} {s t t' : PassState} {o o' : Options} {files : FileTree}

/-- Both models reject a document with the same error, or write it alike. -/
def Model.SameDocuments (m m' : Model) : Prop :=
  ∀ (asked : Option String) (text : String),
    (∀ name ∈ asked, ∀ c ∈ m.findClass? name, (m.decl c).isWrapper = false) →
      Agree (fun v v' => marshalElement m' v' = marshalElement m v) (unmarshal m asked text)
        (unmarshal m' asked text)

theorem Model.SameButHeld.sameDocuments (h : m.SameButHeld m') (hm : m.Linked)
    (ha : GathersApart m) (ht : m.ReadsNoWrapper) : m.SameDocuments m' := by
  intro asked text hasked
  unfold unmarshal
  split
  · next e _ =>
    refine unmarshalElement_same h hm ha ht fun c hc => ?_
    rcases asked_or_bound_of_rootClass hc with ⟨name, hname, hc⟩ | ⟨hw, -⟩
    · exact hasked name hname c hc
    · exact hw
  · exact .error _

namespace Pass

/-- Options for how items are held change nothing else, and no document tells unless fields are
shared. -/
theorem run_same_but_held (ho : o.rejections files = .ok []) (ho' : o'.rejections files = .ok [])
    (h : o'.unheld = o.unheld) (hm : s.model.Linked) (control : Option ControlFile) (n : Naming) :
    (∃ e t t', (⟨o, control, n⟩ : Pass).run.run s = .error e t ∧
      (⟨o', control, n⟩ : Pass).run.run s = .error e t' ∧ t.SameButHeld t') ∨
    ∃ result result' t t', (⟨o, control, n⟩ : Pass).run.run s = .ok result t ∧
      (⟨o', control, n⟩ : Pass).run.run s = .ok result' t' ∧
      t.SameButHeld t' ∧ SameOutcome result result' ∧
      (∀ c, (t.model.decl c).isWrapper = false → ∀ p ∈ (t.model.decl c).properties,
        t'.model.prop p = t.model.prop p) ∧
      (GathersApart t.model → t.model.ReadsNoWrapper → t.model.SameDocuments t'.model) := by
  have hs : s.SameButHeld s := ⟨s.model, .refl _, rfl⟩
  have hlockstep : PassM.Lockstep SameOutcome (⟨o, control, n⟩ : Pass).run
      (⟨o', control, n⟩ : Pass).run :=
    run_lockstep (Options.resolves_of_rejections ho) (Options.resolves_of_rejections ho') h
  have htogether := hlockstep s s hs
  generalize hx : (⟨o, control, n⟩ : Pass).run.run s = x,
    hy : (⟨o', control, n⟩ : Pass).run.run s = y at htogether
  cases htogether with
  | error e ht => exact Or.inl ⟨e, _, _, rfl, rfl, ht⟩
  | @ok result result' t t' hresult ht =>
    have hl := linked_of_run hm hx
    obtain ⟨m', hheld, rfl⟩ := ht
    exact Or.inr ⟨result, result', t, _, rfl, rfl, ⟨m', hheld, rfl⟩, hresult,
      fun c hc p hp => hheld.prop_eq hl hc hp, fun ha ht => hheld.sameDocuments hl ha ht⟩

def lazyDeques : Options where
  collection := .text "deque"
  collectionInterface := .text "Sequence"
  instantiate := .text "lazy"

def mixedLetter : String := "<Letter>Dear <b>Bob</b>!</Letter>"

theorem run_same_but_held_of_letters : ∃ m result result' t t', Model.ofValue letters = .ok m ∧
    (⟨{}, none, {}⟩ : Pass).run.run { model := m } = .ok result t ∧
    (⟨lazyDeques, none, {}⟩ : Pass).run.run { model := m } = .ok result' t' ∧
      Options.rejections [] {} = .ok [] ∧ lazyDeques.rejections [] = .ok [] ∧
      lazyDeques.unheld = Options.unheld {} ∧ m.Linked ∧
      (t.model.prop ⟨2⟩).collectionType = some "list" ∧
      (t'.model.prop ⟨2⟩).collectionType = some "deque" ∧
      GathersApart t.model ∧ t.model.ReadsNoWrapper ∧
      (unmarshal t.model none mixedLetter).toOption.isSome = true ∧
      t.SameButHeld t' ∧ SameOutcome result result' ∧ t.model.SameDocuments t'.model := by
  obtain ⟨m, result, t, hm, hr, hlist, hapart, htypes, hread⟩ :=
    exists_run_of_ran? ⟨{}, none, {}⟩ letters (fun _ _ t =>
      (t.model.prop ⟨2⟩).collectionType = some "list" ∧ GathersApart t.model ∧
        t.model.ReadsNoWrapper ∧ (unmarshal t.model none mixedLetter).toOption.isSome = true)
    (by decide +kernel)
  obtain ⟨m', result', t', hm', hr', hdeque⟩ :=
    exists_run_of_ran? ⟨lazyDeques, none, {}⟩ letters (fun _ _ t =>
      (t.model.prop ⟨2⟩).collectionType = some "deque") (by decide +kernel)
  obtain rfl : m = m' := Except.ok.inj (hm.symm.trans hm')
  have hvalid : Options.rejections [] {} = .ok [] := rfl
  have hvalid' : lazyDeques.rejections [] = .ok [] := rfl
  have hlinked := (Model.described_ofValue hm).toLinked
  rcases run_same_but_held (s := { model := m }) hvalid hvalid' rfl hlinked none {} with
    ⟨e, _, _, he, -⟩ | ⟨_, _, _, _, h, h', hheld, houtcome, -, hsame⟩
  · cases hr.symm.trans he
  · cases hr.symm.trans h
    cases hr'.symm.trans h'
    exact ⟨m, result, result', t, t', hm, hr, hr', hvalid, hvalid', rfl, hlinked, hlist, hdeque,
      hapart, htypes, hread, hheld, houtcome, hsame hapart htypes⟩

/-- Mixed content that is called like the runs of text, in a field of its own. -/
def letterParts : Value :=
  .object [("package", .text "post"), ("classes", .list [
    .object [("name", .text "Letter"), ("properties", .list [
      .object [("name", .text textRunsName), ("kind", .text "mixed"), ("repeated", .bool true),
        ("customization", .object [("field", .text "parts")])]])]])]

/-- Runs of text may have no container where that is left to the caller. -/
theorem uncontained_runs_rejected : ¬ ∀ (described : Value) (files : FileTree) (o o' : Options)
    (control : Option ControlFile) (n : Naming) (s t t' : PassState) (result result' : PassResult),
    Model.ofValue described = .ok s.model → o.rejections files = .ok [] →
      o'.rejections files = .ok [] → o'.unheld = o.unheld →
      (⟨o, control, n⟩ : Pass).run.run s = .ok result t →
      (⟨o', control, n⟩ : Pass).run.run s = .ok result' t' → t.model.ReadsNoWrapper →
        t.model.SameDocuments t'.model := by
  intro claim
  obtain ⟨m, result, t, hm, hr, htypes, hread⟩ :=
    exists_run_of_ran? ⟨{}, none, {}⟩ letterParts (fun _ _ t => t.model.ReadsNoWrapper ∧
      (unmarshal t.model none mixedLetter).toOption.isSome = true) (by decide +kernel)
  obtain ⟨m', result', t', hm', hr', hread'⟩ :=
    exists_run_of_ran? ⟨{ instantiate := .text "none" }, none, {}⟩ letterParts (fun _ _ t =>
      (unmarshal t.model none mixedLetter).toOption.isSome = false) (by decide +kernel)
  obtain rfl : m = m' := Except.ok.inj (hm.symm.trans hm')
  have hsame := claim letterParts [] {} { instantiate := .text "none" } none {} { model := m } t t'
    result result' hm rfl rfl rfl hr hr' htypes none mixedLetter fun _ hname => nomatch hname
  generalize unmarshal t.model none mixedLetter = x, unmarshal t'.model none mixedLetter = x'
    at hread hread' hsame
  cases hsame with
  | error e => cases hread
  | ok _ => cases hread'

end Pass
end Enfold
