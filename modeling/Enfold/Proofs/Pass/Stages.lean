import Enfold.Proofs.Naming.Derive
import Enfold.Proofs.Pass.Outcome

/-! # The stages of a run

A run chooses its candidates, wraps them, places the classes and reports. Nothing before the first
candidate is wrapped touches the model, and nothing from there on fails for a configuration: a run
that stops at a configuration error has left the model as it was.
-/

namespace Enfold

namespace PassM

variable {α β : Type}

/-- However the program ends, what is seen of the state is as it was. -/
structure Keeps {γ : Type} (view : PassState → γ) (x : PassM α) : Prop where
  of_ok : ∀ {s a t}, x.run s = .ok a t → view t = view s
  of_error : ∀ {s e t}, x.run s = .error e t → view t = view s

namespace Keeps

variable {γ : Type} {view : PassState → γ}

theorem bind {x : PassM α} {f : α → PassM β} (hx : Keeps view x) (hf : ∀ a, Keeps view (f a)) :
    Keeps view (x >>= f) where
  of_ok h := by
    obtain ⟨a, u, hx', hf'⟩ := bind_eq_ok.mp h
    exact ((hf a).of_ok hf').trans (hx.of_ok hx')
  of_error h := by
    rcases bind_eq_error.mp h with hx' | ⟨a, u, hx', hf'⟩
    · exact hx.of_error hx'
    · exact ((hf a).of_error hf').trans (hx.of_ok hx')

theorem pure (a : α) : Keeps view (pure a : PassM α) := ⟨by simp +contextual, by simp⟩

theorem get : Keeps view (get : PassM PassState) := ⟨by simp +contextual, by simp⟩

theorem modify {f : PassState → PassState} (hf : ∀ s, view (f s) = view s) :
    Keeps view (modify f : PassM Unit) :=
  ⟨fun h => by cases h; exact hf _, by simp⟩

theorem require {ε : Type} (g : ε → Failure) (e : Except ε α) : Keeps view (require g e) where
  of_ok h := by rw [(require_eq_ok.mp h).2]
  of_error h := by
    obtain ⟨y, -, -, rfl⟩ := require_eq_error.mp h
    rfl

theorem report (hn : ∀ s ns, view { s with notices := ns } = view s) (n : Notice) :
    Keeps view (report n) := modify fun _ => hn _ _

theorem configured (hn : ∀ s ns, view { s with notices := ns } = view s)
    (e : Except ConfigError α) : Keeps view (configured e) where
  of_ok h := by rw [(configured_eq_ok.mp h).2]
  of_error h := by
    obtain ⟨y, -, -, rfl⟩ := configured_eq_error.mp h
    exact hn _ _

theorem foldlM {f : β → α → PassM β} (hf : ∀ b a, Keeps view (f b a)) (l : List α) (b : β) :
    Keeps view (l.foldlM f b) := by
  induction l generalizing b with
  | nil => exact pure b
  | cons a l ih =>
    rw [List.foldlM_cons]
    exact (hf b a).bind fun c => ih c

end Keeps

abbrev KeepsModel (x : PassM α) : Prop := Keeps PassState.model x

/-- The program may fail, but not in a certain way. -/
structure Avoids (bad : Failure → Prop) (x : PassM α) : Prop where
  not_bad : ∀ {s e t}, x.run s = .error e t → ¬ bad e

namespace Avoids

variable {bad : Failure → Prop}

theorem bind {x : PassM α} {f : α → PassM β} (hx : Avoids bad x) (hf : ∀ a, Avoids bad (f a)) :
    Avoids bad (x >>= f) where
  not_bad h := by
    rcases bind_eq_error.mp h with h | ⟨a, u, -, h⟩
    · exact hx.not_bad h
    · exact (hf a).not_bad h

theorem pure (a : α) : Avoids bad (pure a : PassM α) := ⟨by simp⟩

theorem get : Avoids bad (get : PassM PassState) := ⟨by simp⟩

theorem modify (f : PassState → PassState) : Avoids bad (modify f : PassM Unit) := ⟨by simp⟩

theorem reportIf (worth : Bool) (n : Notice) : Avoids bad (reportIf worth n) := by
  cases worth
  · exact pure ()
  · exact modify _

theorem require {ε : Type} {g : ε → Failure} {e : Except ε α}
    (hg : ∀ y, e = .error y → ¬ bad (g y)) : Avoids bad (require g e) where
  not_bad h := by
    obtain ⟨y, he, rfl, -⟩ := require_eq_error.mp h
    exact hg y he

theorem foldlM {f : β → α → PassM β} (hf : ∀ b a, Avoids bad (f b a)) (l : List α) (b : β) :
    Avoids bad (l.foldlM f b) := by
  induction l generalizing b with
  | nil => exact pure b
  | cons a l ih =>
    rw [List.foldlM_cons]
    exact (hf b a).bind fun c => ih c

theorem mapM {f : α → PassM β} (hf : ∀ a, Avoids bad (f a)) (l : List α) :
    Avoids bad (l.mapM f) := by
  induction l with
  | nil => exact pure []
  | cons a l ih =>
    rw [List.mapM_cons]
    exact (hf a).bind fun b => ih.bind fun bs => pure (b :: bs)

theorem forM {f : α → PassM Unit} (hf : ∀ a, Avoids bad (f a)) (l : List α) :
    Avoids bad (l.forM f) := by
  induction l with
  | nil => exact pure ()
  | cons a l ih => exact (hf a).bind fun _ => ih

theorem configured {e : Except ConfigError α} (hc : ∀ e, ¬ bad (.configuration e)) :
    Avoids bad (configured e) where
  not_bad h := by
    obtain ⟨y, -, rfl, -⟩ := configured_eq_error.mp h
    exact hc y

theorem claimName {n : Naming} (hn : ∀ e, n.CanFail e → ¬ bad (.name e)) (name : String)
    (taken : List String) (scope : Option String) :
    Avoids bad (claimName n.maxSuffix name taken scope) :=
  (require fun y hy => hn y (Naming.disambiguate_error hy)).bind fun _ =>
    (modify _).bind fun _ => pure _

end Avoids

abbrev NeverConfigures (x : PassM α) : Prop := Avoids (fun f => ∃ e, f = .configuration e) x

namespace NeverConfigures

theorem ne_error {x : PassM α} {s t : PassState} {e : ConfigError} (h : NeverConfigures x) :
    x.run s ≠ .error (.configuration e) t := fun hx => h.not_bad hx ⟨e, rfl⟩

theorem get : NeverConfigures (get : PassM PassState) := Avoids.get

end NeverConfigures

end PassM

open PassM

section Choice

variable {γ : Type} {view : PassState → γ}
  (hv : ∀ s n ns, view { s with counters := { s.counters with candidates := n }, notices := ns } =
    view s)

include hv

theorem considerProperty_keeps (z : Customization) (c : ClassId) (chosen : List Candidate)
    (p : PropertyId) : Keeps view (considerProperty z c chosen p) := by
  unfold considerProperty
  refine Keeps.get.bind fun s => ?_
  dsimp only
  split
  · exact .pure _
  · refine (Keeps.modify fun s => hv s _ _).bind fun _ =>
      (Keeps.configured (fun s => hv s _) _).bind fun d => ?_
    split
    · exact .pure _
    · exact (Keeps.report (fun s => hv s _) _).bind fun _ => .pure _

theorem considerClass_keeps (z : Customization) (chosen : List Candidate) (c : ClassId) :
    Keeps view (considerClass z chosen c) := by
  unfold considerClass
  refine Keeps.get.bind fun s => ?_
  dsimp only
  split
  · exact .pure _
  · exact .foldlM (fun b p => considerProperty_keeps hv z c b p) _ _

theorem selectCandidates_keeps (z : Customization) : Keeps view (selectCandidates z) :=
  Keeps.get.bind fun _ =>
    (Keeps.foldlM (fun b c => considerClass_keeps hv z b c) _ _).bind fun _ =>
      Keeps.get.bind fun _ => (Keeps.report (fun s => hv s _) _).bind fun _ => .pure _

variable (view)

theorem Pass.choose_keeps (p : Pass) : Keeps view p.choose :=
  Keeps.get.bind fun _ => (Keeps.report (fun s => hv s _) _).bind fun _ =>
    (Keeps.configured (fun s => hv s _) _).bind fun _ => selectCandidates_keeps hv _

end Choice

theorem Pass.choose_keepsModel (p : Pass) : KeepsModel p.choose :=
  p.choose_keeps PassState.model fun _ _ _ => rfl

section Choosing

variable {bad : Failure → Prop} (hc : ∀ e, ¬ bad (.configuration e))

include hc

theorem considerProperty_avoids (z : Customization) (c : ClassId) (chosen : List Candidate)
    (p : PropertyId) : Avoids bad (considerProperty z c chosen p) := by
  unfold considerProperty
  refine Avoids.get.bind fun s => ?_
  dsimp only
  split
  · exact .pure _
  · refine (Avoids.modify _).bind fun _ => (Avoids.configured hc).bind fun d => ?_
    split
    · exact .pure _
    · exact (Avoids.modify _).bind fun _ => .pure _

theorem considerClass_avoids (z : Customization) (chosen : List Candidate) (c : ClassId) :
    Avoids bad (considerClass z chosen c) := by
  unfold considerClass
  refine Avoids.get.bind fun s => ?_
  dsimp only
  split
  · exact .pure _
  · exact .foldlM (fun b p => considerProperty_avoids hc z c b p) _ _

theorem Pass.choose_avoids (p : Pass) : Avoids bad p.choose :=
  Avoids.get.bind fun _ => (Avoids.modify _).bind fun _ => (Avoids.configured hc).bind fun _ =>
    Avoids.get.bind fun _ =>
      (Avoids.foldlM (fun b c => considerClass_avoids hc _ b c) _ _).bind fun _ =>
        Avoids.get.bind fun _ => (Avoids.modify _).bind fun _ => .pure _

end Choosing

section Failing

variable {bad : Failure → Prop} (hm : ∀ e, ¬ bad (.misuse e)) (hs : ∀ e, ¬ bad (.state e))
  (ho : ∀ e, ¬ bad (.ownership e)) {n : Naming} (hn : ∀ e, n.CanFail e → ¬ bad (.name e))

section Records

include hm hs

theorem advance_avoids (r : Record) (expected : CandidateState) :
    Avoids bad (require id (r.advance expected)) := by
  apply Avoids.require
  intro y h
  unfold Record.advance at h
  split at h
  · split at h <;> cases h
    exact hm _
  · cases h
    exact hs _

include ho

theorem dropInherited_avoids (c : Candidate) (w : ClassId) : Avoids bad (c.dropInherited w) := by
  unfold Candidate.dropInherited
  refine (advance_avoids hm hs _ _).bind fun _ => Avoids.get.bind fun s => ?_
  refine (Avoids.require fun y _ => ho y).bind fun x => (Avoids.modify _).bind fun _ => ?_
  refine (advance_avoids hm hs _ _).bind fun _ => (Avoids.modify _).bind fun _ => ?_
  exact (advance_avoids hm hs _ _).bind fun _ => (Avoids.modify _).bind fun _ => .pure _

theorem wrap_avoids (c : Candidate) (plan : WrapperPlan) : Avoids bad (c.wrap plan) := by
  unfold Candidate.wrap
  refine Avoids.get.bind fun s => (Avoids.modify _).bind fun _ => ?_
  refine (advance_avoids hm hs _ _).bind fun _ => (Avoids.require fun y _ => ho y).bind fun x => ?_
  refine (Avoids.modify _).bind fun _ => ?_
  refine (Avoids.reportIf _ _).bind fun _ => (advance_avoids hm hs _ _).bind fun _ => ?_
  refine (Avoids.modify _).bind fun _ => (Avoids.modify _).bind fun _ => ?_
  exact (advance_avoids hm hs _ _).bind fun _ => (Avoids.modify _).bind fun _ => .pure _

end Records

include hn

theorem claimClassName_avoids (c : Candidate) : Avoids bad (c.claimClassName n) := by
  unfold Candidate.claimClassName
  refine Avoids.get.bind fun s => ?_
  refine (Avoids.require fun y hy => hn y (Naming.wrapperClassName_error hy).2).bind fun x => ?_
  split
  · exact .pure _
  · exact .claimName hn ..

theorem plan_avoids (c : Candidate) : Avoids bad (c.plan n) := by
  unfold Candidate.plan Candidate.claimReferenceField
  refine (claimClassName_avoids hn c).bind fun _ => Avoids.bind ?_ fun _ => ?_
  · exact Avoids.get.bind fun _ => .claimName hn ..
  · exact Avoids.get.bind fun _ => .pure _

theorem placeClass_avoids (s : PlacementState) (c : ClassId) : Avoids bad (placeClass n s c) := by
  unfold placeClass
  refine Avoids.get.bind fun t => ?_
  split
  · refine Avoids.bind ?_ fun _ => Avoids.get.bind fun _ => .pure _
    exact Avoids.get.bind fun _ => (Avoids.claimName hn ..).bind fun _ =>
      (Avoids.modify _).bind fun _ => .modify _
  · exact Avoids.get.bind fun _ => .pure _

/-- Placement fails for a name, if at all. -/
theorem placeClasses_avoids : Avoids bad (placeClasses n) :=
  Avoids.get.bind fun _ => (Avoids.foldlM (fun b c => placeClass_avoids hn b c) _ _).bind fun _ =>
    (Avoids.reportIf _ _).bind fun _ => .pure _

include hm hs ho

theorem synthesize_avoids (c : Candidate) : Avoids bad (c.synthesize n) := by
  unfold Candidate.synthesize
  refine Avoids.get.bind fun s => ?_
  split
  · exact dropInherited_avoids hm hs ho ..
  · exact (plan_avoids hn c).bind fun _ => wrap_avoids hm hs ho ..

theorem synthesizeAll_avoids (cs : List Candidate) : Avoids bad (synthesizeAll n cs) :=
  (Avoids.mapM (fun c => synthesize_avoids hm hs ho hn c) cs).bind fun _ =>
    Avoids.get.bind fun _ => (Avoids.modify _).bind fun _ => .pure _

end Failing

theorem synthesizeAll_neverConfigures (n : Naming) (cs : List Candidate) :
    NeverConfigures (synthesizeAll n cs) :=
  synthesizeAll_avoids (by simp) (by simp) (by simp) (by simp) cs

theorem placeClasses_neverConfigures (n : Naming) : NeverConfigures (placeClasses n) :=
  placeClasses_avoids (by simp)

namespace Pass

section Concluding

variable {bad : Failure → Prop} (hm : ∀ e, ¬ bad (.misuse e)) (hf : ∀ e, ¬ bad (.file e))

include hm hf

theorem writeSummary_avoids (path : Value) : Avoids bad (writeSummary path) := by
  unfold writeSummary
  refine (Avoids.require fun y _ => hm y).bind fun _ => Avoids.get.bind fun _ => ?_
  exact (Avoids.require fun y _ => hf y).bind fun _ => (Avoids.modify _).bind fun _ => .modify _

theorem conclude_avoids (p : Pass) (k : Counters) : Avoids bad (p.conclude k) := by
  unfold conclude
  refine (Avoids.forM (fun l => .modify _) _).bind fun _ => ?_
  split
  · exact writeSummary_avoids hm hf _
  · exact .pure _

end Concluding

theorem conclude_neverConfigures (p : Pass) (k : Counters) : NeverConfigures (p.conclude k) :=
  p.conclude_avoids (by simp) (by simp) k

/-- A run that stops at a configuration error leaves the model as it was. -/
theorem model_eq_of_configuration_error {p : Pass} {s t : PassState} {e : ConfigError}
    (h : p.run.run s = .error (.configuration e) t) : t.model = s.model := by
  rcases bind_eq_error.mp h with h | ⟨cs, u, -, h⟩
  · exact p.choose_keepsModel.of_error h
  · -- Once the candidates are chosen, no stage can fail for a configuration.
    refine absurd h (NeverConfigures.ne_error ?_)
    exact (synthesizeAll_neverConfigures _ cs).bind fun rs =>
      (placeClasses_neverConfigures _).bind fun renamed => NeverConfigures.get.bind fun _ =>
        (p.conclude_neverConfigures _).bind fun _ => .pure _

/-- The configuration error that stops a run, with the state that it leaves. -/
def refused? (p : Pass) (m : Model) : Option (ConfigError × PassState) :=
  match p.run.run { model := m } with
  | .error (.configuration e) t => some (e, t)
  | _ => none

theorem refused?_eq_some {p : Pass} {m : Model} {e : ConfigError} {t : PassState}
    (h : p.refused? m = some (e, t)) :
    p.run.run { model := m } = .error (.configuration e) t := by
  unfold refused? at h
  split at h
  · next hr =>
    cases h
    exact hr
  · cases h

/-- Goods that say how they are held, and notes that leave it to the options. -/
def basket : Value :=
  .object [("classes", .list [.object [("name", .text "Basket"), ("properties", .list [
    .object [("name", .text "good"), ("repeated", .bool true),
      ("customization", .object [("collection", .text "set")])],
    .object [("name", .text "note"), ("repeated", .bool true)]])]])]

theorem basket_eq_of_configuration_error : ∃ m e t, Model.ofValue basket = .ok m ∧
    (⟨{ collection := .int 5 }, none, {}⟩ : Pass).run.run { model := m } =
      .error (.configuration e) t ∧
      t.counters.candidates = 2 ∧ t.model = m := by
  obtain ⟨m, hm⟩ : ∃ m, (Model.ofValue basket).toOption = some m :=
    Option.isSome_iff_exists.mp (by decide +kernel)
  have hr : ((Model.ofValue basket).toOption.bind
      (⟨{ collection := .int 5 }, none, {}⟩ : Pass).refused?).map
        (fun x => x.2.counters.candidates) = some 2 := by decide +kernel
  rw [hm, Option.bind_some] at hr
  obtain ⟨⟨e, t⟩, hr, hcount⟩ := Option.map_eq_some_iff.mp hr
  have hr := refused?_eq_some hr
  exact ⟨m, e, t, toOption_eq_some.mp hm, hr, hcount, model_eq_of_configuration_error hr⟩

end Pass
end Enfold
