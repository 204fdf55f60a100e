import Enfold.Proofs.Customization.Validated
import Enfold.Proofs.Pass.Interrupted

/-! # Runs after validation

Once the customizations of a model are validated, and those of a whole run are of the kinds that
can be loaded, every property has a directive and every candidate stands where it was chosen. So a
run can only fail to find a name, or to write its summary in the end.
-/

namespace Enfold

open PassM

variable {n : Naming} {s t : PassState} {k : Candidate} {rs : List Record} {e : Failure}

theorem Synthesizing.finalized (h : Synthesizing n s rs t) (hm : s.model.Linked) :
    ∀ r ∈ rs, r.state = .finalized := by
  induction h with
  | start => simp
  | @step rs t u r hrun hk hs ih =>
    have hnow := hrun.advanced hm
    have hlast : r.state = .finalized := by
      rcases Candidate.synthesize_ok hnow.linked (hnow.stands hk) hs with h | ⟨plan, w, q, h⟩
      · obtain ⟨w, -, hr⟩ := h.inherited
        rw [hr]
      · rw [h.record]
    intro r' hr'
    rcases List.mem_append.mp hr' with hr' | hr'
    · exact ih r' hr'
    · rwa [List.mem_singleton.mp hr']

namespace Pass

variable {p : Pass} {result : PassResult}

theorem conclude_error {c : Counters} (h : (p.conclude c).run s = .error e t) :
    p.options.summary.isTruthy = true ∧
      ∃ u, (writeSummary p.options.summary).run u = .error e t := by
  rw [run_conclude] at h
  split at h
  · next hs => exact ⟨hs, _, h⟩
  · cases h

/-- A run that has its directives fails for a name or for its summary. -/
theorem run_error_of_decides (hm : s.model.Linked)
    (hz : Customization.Decides ⟨p.options, p.control⟩ s.model)
    (h : p.run.run s = .error e t) : p.naming.Fails e ∨ p.options.summary.isTruthy = true ∧
      ∃ u, (writeSummary p.options.summary).run u = .error e t := by
  obtain ⟨ks, u, hc⟩ := choose_isOk_iff.mpr hz
  rcases run_eq_error h with h | ⟨ks', u', hc', h⟩
  · rw [hc] at h
    cases h
  rcases h with h | ⟨rs, v, -, h | ⟨cs, w, -, h⟩⟩
  · obtain ⟨rs, k, -, x, -, -, hx, hfresh, hk⟩ := synthesizeAll_eq_error hm hc' h
    exact Or.inl (Candidate.synthesize_error hx.linked (hx.stands hfresh) hk)
  · exact Or.inl (fails_of_avoids (fun _ hn => placeClasses_avoids hn) h)
  · exact Or.inr (conclude_error h)

/-- A run of a validated model fails only for a name or for its summary. -/
theorem failure_of_validated_run {files : FileTree} {custom configFile args v : Value}
    (hm : Model.ofValue v = .ok s.model)
    (ho : Options.load files custom configFile args = .ok p.options)
    (hcontrol : ∀ f, p.control = some f → f.IsRead)
    (hvalid : Customization.validate ⟨p.options, p.control⟩ s.model = .ok ()) :
    (∀ e t, p.run.run s = .error e t → p.naming.Fails e ∨
      p.options.summary.isTruthy = true ∧
        ∃ u, (writeSummary p.options.summary).run u = .error e t) ∧
      ∀ result t, p.run.run s = .ok result t → ∀ r ∈ result.records, r.state = .finalized := by
  have hl := (Model.described_ofValue hm).toLinked
  have hsound : Customization.Sound ⟨p.options, p.control⟩ := fun f hf => (hcontrol f hf).sound
  have hz : Customization.Decides ⟨p.options, p.control⟩ s.model :=
    ⟨hvalid, fun _ _ _ _ hq _ =>
      Customization.resolve_ok hl hsound (Options.resolves_of_load ho) hvalid hq⟩
  constructor
  · intro e t h
    exact run_error_of_decides hl hz h
  · intro result t h
    obtain ⟨ks, u, v, w, hc, hs, -⟩ := run_ok h
    obtain ⟨x, ns, hx, -⟩ := synthesizeAll_ok hs
    obtain ⟨-, hsyn⟩ := synthesizing_of_linked hl hc (List.prefix_refl ks) hx
    obtain ⟨-, hu⟩ := choose_ok hc
    exact hsyn.finalized (hu ▸ hl)

/-- Options and a model whose customizations are valid with them. -/
def validated? (custom : Value) (control : Option ControlFile) (v : Value) :
    Option (Options × Model) :=
  match Options.load [] custom .null .null, Model.ofValue v with
  | .ok o, .ok m => if (Customization.validate ⟨o, control⟩ m).isOk then some (o, m) else none
  | _, _ => none

theorem validated?_eq_some {custom v : Value} {control : Option ControlFile} {o : Options}
    {m : Model} (h : validated? custom control v = some (o, m)) :
    Options.load [] custom .null .null = .ok o ∧ Model.ofValue v = .ok m ∧
      Customization.validate ⟨o, control⟩ m = .ok () := by
  unfold validated? at h
  split at h
  · next o' m' ho hm =>
    split at h
    · next hv =>
      cases h
      refine ⟨ho, hm, ?_⟩
      cases hx : Customization.validate ⟨o, control⟩ m with
      | ok u => rfl
      | error e =>
        rw [hx] at hv
        cases hv
    · cases h
  · cases h

def invoiceControl : String := "shop.Invoice.item = collection=set"

theorem failure_of_validated_invoices_run : ∃ f o m e t,
    ControlFile.parse invoiceControl "control" = .ok f ∧
    Options.load [] (.object [("plural", .bool true)]) .null .null = .ok o ∧
    Model.ofValue invoices = .ok m ∧ Customization.validate ⟨o, some f⟩ m = .ok () ∧
    (⟨o, some f, { maxSuffix := .int 0 }⟩ : Pass).run.run { model := m } = .error (.name e) t ∧
      (Naming.Fails { maxSuffix := .int 0 } (.name e) ∨ o.summary.isTruthy = true ∧
        ∃ u, (writeSummary o.summary).run u = .error (.name e) t) := by
  obtain ⟨f, hf⟩ : ∃ f, (ControlFile.parse invoiceControl "control").toOption = some f :=
    Option.isSome_iff_exists.mp (by decide +kernel)
  have hr : ((ControlFile.parse invoiceControl "control").toOption.bind fun f =>
      (validated? (.object [("plural", .bool true)]) (some f) invoices).bind fun x =>
        (⟨x.1, some f, { maxSuffix := .int 0 }⟩ : Pass).stopped? x.2).isSome = true := by
    decide +kernel
  rw [hf, Option.bind_some, Option.isSome_iff_exists] at hr
  obtain ⟨⟨e, t⟩, hr⟩ := hr
  obtain ⟨⟨o, m⟩, hx, hr⟩ := Option.bind_eq_some_iff.mp hr
  obtain ⟨ho, hm, hv⟩ := validated?_eq_some hx
  have hf := toOption_eq_some.mp hf
  have hrun := stopped?_eq_some hr
  have hall := failure_of_validated_run (p := ⟨o, some f, { maxSuffix := .int 0 }⟩)
    (s := { model := m }) hm ho (by rintro _ ⟨⟩; exact ControlFile.isRead_of_parse hf) hv
  exact ⟨f, o, m, e, t, hf, ho, hm, hv, hrun, hall.1 _ _ hrun⟩

def capitalItem : Value :=
  .object [("package", .text "shop"), ("classes", .list [
    .object [("name", .text "Order"), ("properties", .list [
      .object [("name", .text "Item"), ("repeated", .bool true)]])]])]

/-- An empty plural stops a run at a capitalized name. -/
theorem empty_plural_not_named : ¬ ∀ (files : FileTree) (custom configFile args v : Value)
    (p : Pass) (s t : PassState) (e : Failure), Model.ofValue v = .ok s.model →
    Options.load files custom configFile args = .ok p.options →
    (∀ f, p.control = some f → f.IsRead) →
    Customization.validate ⟨p.options, p.control⟩ s.model = .ok () →
    p.run.run s = .error e t → (∃ name scope tries, e = .name (.exhausted name scope tries)) ∨
      p.options.summary.isTruthy = true ∧
        ∃ u, (writeSummary p.options.summary).run u = .error e t := by
  intro claim
  have hr : ((validated? (.object [("plural", .bool true)]) none capitalItem).bind fun x =>
      ((⟨x.1, none, { pluralizer := .extended [("item", "")] [] }⟩ : Pass).stopped? x.2).map
        fun y => (x.1.summary.isTruthy, y.1)) = some (false, .emptyPlural) := by decide +kernel
  obtain ⟨⟨o, m⟩, hx, hr⟩ := Option.bind_eq_some_iff.mp hr
  obtain ⟨⟨e, t⟩, hr, he⟩ := Option.map_eq_some_iff.mp hr
  obtain ⟨ho, hm, hv⟩ := validated?_eq_some hx
  obtain ⟨hs, rfl⟩ := Prod.mk.inj he
  have hrun := stopped?_eq_some hr
  rcases claim [] _ _ _ _ ⟨o, none, { pluralizer := .extended [("item", "")] [] }⟩ { model := m } t
    _ hm ho (by simp) hv hrun with ⟨_, _, _, h⟩ | ⟨h, -⟩
  · cases h
  · exact absurd (hs.symm.trans h) (by simp)

end Pass
end Enfold
