import Enfold.Proofs.Customization.Held
import Enfold.Proofs.Pass.Outcome

/-! # Runs in lockstep

Two runs that are to hold items differently do the same at every step. Programs go together if from
states that differ in nothing else they come to the same failure, or to results that go together,
and in either case to such states again.
-/

namespace Enfold

def PassState.SameButHeld (s s' : PassState) : Prop :=
  ∃ m', s.model.SameButHeld m' ∧ s' = { s with model := m' }

def Candidate.unheld (k : Candidate) : Candidate := { k with directive := k.directive.unheld }

def Record.unheld (r : Record) : Record := { r with candidate := r.candidate.unheld }

namespace PassM

variable {α β α' β' : Type} {R : α → β → Prop} {S : α' → β' → Prop}

/-- What two runs come to if they do not come apart. -/
inductive Together (R : α → β → Prop) :
    EStateM.Result Failure PassState α → EStateM.Result Failure PassState β → Prop where
  | ok {a : α} {b : β} {s s' : PassState} (h : R a b) (hs : s.SameButHeld s') :
    Together R (.ok a s) (.ok b s')
  | error (e : Failure) {s s' : PassState} (hs : s.SameButHeld s') :
    Together R (.error e s) (.error e s')

/-- Two programs that go together from all states that do. -/
def Lockstep (R : α → β → Prop) (x : PassM α) (y : PassM β) : Prop :=
  ∀ s s', s.SameButHeld s' → Together R (x.run s) (y.run s')

namespace Lockstep

theorem pure {a : α} {b : β} (h : R a b) : Lockstep R (pure a : PassM α) (pure b : PassM β) :=
  fun _ _ hs => .ok h hs

theorem bind {x : PassM α} {y : PassM β} {f : α → PassM α'} {g : β → PassM β'}
    (h : Lockstep R x y) (hf : ∀ a b, R a b → Lockstep S (f a) (g b)) :
    Lockstep S (x >>= f) (y >>= g) := by
  intro s s' hs
  have h := h s s' hs
  rw [EStateM.run_bind, EStateM.run_bind]
  generalize x.run s = u, y.run s' = v at h ⊢
  cases h with
  | ok h hs => exact hf _ _ h _ _ hs
  | error e hs => exact .error e hs

theorem get : Lockstep PassState.SameButHeld (get : PassM PassState) (get : PassM PassState) :=
  fun _ _ hs => .ok hs hs

theorem modify {f g : PassState → PassState}
    (h : ∀ s s', s.SameButHeld s' → (f s).SameButHeld (g s')) :
    Lockstep (fun _ _ => True) (modify f : PassM PUnit) (modify g : PassM PUnit) :=
  fun s s' hs => .ok trivial (h s s' hs)

theorem setModel {m m' : Model} (h : m.SameButHeld m') :
    Lockstep (fun _ _ => True) (setModel m) (setModel m') :=
  modify fun _ _ ⟨_, _, hs⟩ => ⟨m', h, by rw [hs]⟩

theorem report (n : Notice) : Lockstep (fun _ _ => True) (report n) (report n) :=
  modify fun _ _ ⟨m', hm, hs⟩ => ⟨m', hm, by rw [hs]⟩

theorem reportIf (worth : Bool) (n : Notice) :
    Lockstep (fun _ _ => True) (reportIf worth n) (reportIf worth n) := by
  cases worth with
  | false => exact .pure trivial
  | true => exact report n

theorem count (f : Counters → Counters) : Lockstep (fun _ _ => True) (count f) (count f) :=
  modify fun _ _ ⟨m', hm, hs⟩ => ⟨m', hm, by rw [hs]⟩

theorem require {ε : Type} {x : Except ε α} {y : Except ε β} (f : ε → Failure) (h : Agree R x y) :
    Lockstep R (require f x) (require f y) := by
  intro s s' hs
  cases h with
  | error e => exact .error (f e) hs
  | ok h => exact .ok h hs

theorem configured {x : Except ConfigError α} {y : Except ConfigError β} (h : Agree R x y) :
    Lockstep R (configured x) (configured y) := by
  intro s s' hs
  cases h with
  | error e =>
    obtain ⟨m', hm, rfl⟩ := hs
    rw [run_configured_error, run_configured_error]
    exact .error _ ⟨m', hm, rfl⟩
  | ok h => exact .ok h hs

theorem claimName (limit : Value) (name : String) (taken : List String) (scope : Option String) :
    Lockstep (fun a b => b = a) (claimName limit name taken scope)
      (claimName limit name taken scope) := by
  refine bind (require _ (.of_eq rfl)) ?_
  rintro ⟨assigned, rename⟩ _ rfl
  exact bind (count _) fun _ _ _ => .pure rfl

theorem forM {γ : Type} (l : List γ) {f g : γ → PassM PUnit}
    (h : ∀ c, Lockstep (fun _ _ => True) (f c) (g c)) :
    Lockstep (fun _ _ => True) (l.forM f) (l.forM g) := by
  induction l with
  | nil => exact .pure trivial
  | cons c l ih => exact bind (h c) fun _ _ _ => ih

theorem foldlM {γ : Type} {l : List γ} {f : α → γ → PassM α} {g : β → γ → PassM β}
    (h : ∀ c a b, R a b → Lockstep R (f a c) (g b c)) {a : α} {b : β} (hab : R a b) :
    Lockstep R (l.foldlM f a) (l.foldlM g b) := by
  induction l generalizing a b with
  | nil => exact .pure hab
  | cons c l ih =>
    rw [List.foldlM_cons, List.foldlM_cons]
    exact bind (h c a b hab) fun a b hab => ih hab

theorem mapM {l : List α} {l' : List β} {f : α → PassM α'} {g : β → PassM β'}
    (hl : List.Forall₂ R l l') (h : ∀ a b, R a b → Lockstep S (f a) (g b)) :
    Lockstep (List.Forall₂ S) (l.mapM f) (l'.mapM g) := by
  induction hl with
  | nil => exact .pure .nil
  | cons hab _ ih =>
    rw [List.mapM_cons, List.mapM_cons]
    exact bind (h _ _ hab) fun _ _ hr => bind ih fun _ _ hrs => .pure (.cons hr hrs)

end Lockstep
end PassM

open PassM

/-! ### The choice of candidates -/

variable {o o' : Options} {control : Option ControlFile} {n : Naming} {k k' : Candidate}
  {r r' : Record} {w : ClassId}

theorem considerProperty_lockstep (ho : o.Resolves) (ho' : o'.Resolves) (h : o'.unheld = o.unheld)
    (c : ClassId) (p : PropertyId) {ks ks' : List Candidate}
    (hks : List.Forall₂ (fun k k' => k'.unheld = k.unheld) ks ks') :
    Lockstep (List.Forall₂ fun k k' => k'.unheld = k.unheld)
      (considerProperty ⟨o, control⟩ c ks p) (considerProperty ⟨o', control⟩ c ks' p) := by
  unfold considerProperty
  refine .bind .get ?_
  rintro s s' ⟨m', hm, rfl⟩
  dsimp only
  rw [hm.congr p Property.isMultiValued fun _ => rfl]
  split
  · exact .pure hks
  · refine .bind (.count _) fun _ _ _ => ?_
    refine .bind (.configured (Customization.resolve_alike ho ho' h hm p)) fun d d' hd => ?_
    have hwrap : d'.wrap = d.wrap := (congrArg Directive.wrap hd :)
    have hsource : d'.source = d.source := (congrArg Directive.source hd :)
    rw [hwrap, hsource, hm.path]
    split
    · refine .pure (List.rel_append hks (.cons ?_ .nil))
      simp [Candidate.of, Candidate.unheld, hd, hm.path]
    · exact .bind (.report _) fun _ _ _ => .pure hks

theorem considerClass_lockstep (ho : o.Resolves) (ho' : o'.Resolves) (h : o'.unheld = o.unheld)
    (c : ClassId) {ks ks' : List Candidate}
    (hks : List.Forall₂ (fun k k' => k'.unheld = k.unheld) ks ks') :
    Lockstep (List.Forall₂ fun k k' => k'.unheld = k.unheld)
      (considerClass ⟨o, control⟩ ks c) (considerClass ⟨o', control⟩ ks' c) := by
  unfold considerClass
  refine .bind .get ?_
  rintro s s' ⟨m', hm, rfl⟩
  dsimp only
  rw [hm.decl]
  split
  · exact .pure hks
  · exact .foldlM (fun p _ _ => considerProperty_lockstep ho ho' h c p) hks

theorem choose_lockstep (ho : o.Resolves) (ho' : o'.Resolves) (h : o'.unheld = o.unheld) :
    Lockstep (List.Forall₂ fun k k' => k'.unheld = k.unheld)
      (⟨o, control, n⟩ : Pass).choose (⟨o', control, n⟩ : Pass).choose := by
  unfold Pass.choose
  refine .bind .get ?_
  rintro s s' ⟨m', hm, rfl⟩
  dsimp only
  rw [hm.walk]
  refine .bind (.report _) fun _ _ _ => ?_
  refine .bind (.configured (.of_eq (Customization.validate_alike hm))) fun _ _ _ => ?_
  unfold selectCandidates
  refine .bind .get ?_
  rintro s s' ⟨m', hm, rfl⟩
  dsimp only
  rw [hm.walk]
  refine .bind (.foldlM (fun c _ _ => considerClass_lockstep ho ho' h c) .nil) fun ks ks' hks => ?_
  refine .bind .get ?_
  rintro s s' ⟨m', hm, rfl⟩
  dsimp only
  rw [hks.length_eq]
  exact .bind (.report _) fun _ _ _ => .pure hks

/-! ### Wrapping -/

theorem Candidate.eq_of_unheld (h : k'.unheld = k.unheld) :
    k' = { k with directive := k'.directive } := by
  obtain ⟨owner, prop, e, path⟩ := k
  obtain ⟨owner', prop', e', path'⟩ := k'
  simp only [Candidate.unheld, Candidate.mk.injEq] at h
  obtain ⟨rfl, rfl, -, rfl⟩ := h
  rfl

theorem advance_lockstep (h : r'.unheld = r.unheld) (expected : CandidateState) :
    Agree (fun r r' => r'.unheld = r.unheld) (r.advance expected) (r'.advance expected) := by
  have hstate : r'.state = r.state := (congrArg Record.state h :)
  have hpath : r'.candidate.path = r.candidate.path :=
    (congrArg (fun r : Record => r.candidate.path) h :)
  unfold Record.advance
  rw [hstate, hpath]
  split
  · split
    · next state _ => exact .ok (congrArg (fun r : Record => { r with state }) h)
    · exact .error _
  · exact .error _

namespace Candidate

variable {e : Directive} (h : e.unheld = k.directive.unheld)
include h

theorem unheld_record (w : Option ClassId) (explicitName : Bool) :
    ({ candidate := { k with directive := e }, wrapper := w, explicitName } : Record).unheld =
      ({ candidate := k, wrapper := w, explicitName } : Record).unheld := by
  simp [Record.unheld, Candidate.unheld, h]

theorem dropInherited_lockstep (w : ClassId) : Lockstep (fun r r' => r'.unheld = r.unheld)
    (k.dropInherited w) ({ k with directive := e }.dropInherited w) := by
  unfold dropInherited
  refine .bind (.require _ (advance_lockstep (unheld_record h _ false) _)) fun r r' hr => ?_
  refine .bind .get ?_
  rintro s s' ⟨m', hm, rfl⟩
  refine .bind (.require _ (hm.deleteProperty k.prop)) ?_
  rintro ⟨m, _⟩ ⟨m', _⟩ hm
  refine .bind (.setModel hm) fun _ _ _ => ?_
  have hr : ({ r' with deleted := true } : Record).unheld =
      ({ r with deleted := true } : Record).unheld :=
    congrArg (fun r : Record => { r with deleted := true }) hr
  refine .bind (.require _ (advance_lockstep hr _)) fun r r' hr => ?_
  refine .bind (.count _) fun _ _ _ => ?_
  refine .bind (.require _ (advance_lockstep hr _)) fun r r' hr => ?_
  dsimp only
  rw [hm.qualifiedName]
  exact .bind (.report _) fun _ _ _ => .pure hr

theorem wrap_lockstep (plan : WrapperPlan) : Lockstep (fun r r' => r'.unheld = r.unheld)
    (k.wrap plan) ({ k with directive := e }.wrap plan) := by
  unfold wrap
  refine .bind .get ?_
  rintro s s' ⟨m', hm, rfl⟩
  obtain ⟨hadded, hw, hwrapper⟩ := hm.addWrapper k e plan
  dsimp only
  rw [hw]
  generalize (s.model.addWrapper k plan).2 = w at hwrapper ⊢
  refine .bind (.setModel hadded) fun _ _ _ => ?_
  refine .bind (.require _ (advance_lockstep (unheld_record h _ _) _)) fun r r' hr => ?_
  refine .bind (.require _ (hadded.relink k e hwrapper plan)) ?_
  rintro ⟨m, _⟩ ⟨m', q⟩ ⟨hm, rfl⟩
  dsimp only
  rw [hm.congr k.prop Property.kind fun _ => rfl, hm.congr k.prop Property.substitutes fun _ => rfl,
    hm.congr k.prop Property.name fun _ => rfl]
  refine .bind (.setModel hm) fun _ _ _ => ?_
  refine .bind (.reportIf _ _) fun _ _ _ => ?_
  have hr : ({ r' with reference := some q } : Record).unheld =
      ({ r with reference := some q } : Record).unheld :=
    congrArg (fun r : Record => { r with reference := some q }) hr
  refine .bind (.require _ (advance_lockstep hr _)) fun r r' hr => ?_
  refine .bind (.setModel ((hm.implementWrapper k.owner w q).listInEpisode w)) fun _ _ _ => ?_
  refine .bind (.count _) fun _ _ _ => ?_
  refine .bind (.require _ (advance_lockstep hr _)) fun r r' hr => ?_
  exact .bind (.modify fun _ _ ⟨m', hm, hs⟩ => ⟨m', hm, by rw [hs]⟩) fun _ _ _ => .pure hr

theorem parent?_eq : ({ k with directive := e } : Candidate).parent? = k.parent? := by
  have hnested : e.nested = k.directive.nested := (congrArg Directive.nested h :)
  simp only [parent?, hnested]

theorem claimClassName_lockstep (n : Naming) : Lockstep (fun a b => b = a)
    (k.claimClassName n) ({ k with directive := e }.claimClassName n) := by
  have hplural : e.plural = k.directive.plural := (congrArg Directive.plural h :)
  have hclass : e.className = k.directive.className := (congrArg Directive.className h :)
  unfold claimClassName
  refine .bind .get ?_
  rintro s s' ⟨m', hm, rfl⟩
  rw [parent?_eq h]
  dsimp only
  rw [hplural, hclass, hm.congr k.prop Property.name fun _ => rfl, hm.decl, hm.namesInScope,
    hm.qualifiedName]
  refine .bind (.require _ (.of_eq rfl)) ?_
  rintro _ name rfl
  split
  · exact .pure rfl
  · exact .claimName _ _ _ _

omit h in
theorem claimReferenceField_lockstep (n : Naming) (className : String) : Lockstep (fun a b => b = a)
    (k.claimReferenceField n className)
    ({ k with directive := e }.claimReferenceField n className) := by
  unfold claimReferenceField
  refine .bind .get ?_
  rintro s s' ⟨m', hm, rfl⟩
  simp only [hm.decl, hm.congr _ Property.field fun _ => rfl, hm.qualifiedName]
  exact .claimName _ _ _ _

theorem plan_lockstep (n : Naming) : Lockstep (fun a b => b = a)
    (k.plan n) ({ k with directive := e }.plan n) := by
  have hclass : e.className = k.directive.className := (congrArg Directive.className h :)
  have hfield : e.fieldName = k.directive.fieldName := (congrArg Directive.fieldName h :)
  unfold plan
  refine .bind (claimClassName_lockstep h n) ?_
  rintro _ className rfl
  refine .bind (claimReferenceField_lockstep n className) ?_
  rintro _ field rfl
  refine .bind .get ?_
  rintro s s' ⟨m', hm, rfl⟩
  rw [parent?_eq h]
  dsimp only
  rw [hclass, hfield, hm.decl, hm.congr k.prop Property.name fun _ => rfl]
  exact .pure rfl

theorem synthesize_lockstep (n : Naming) : Lockstep (fun r r' => r'.unheld = r.unheld)
    (k.synthesize n) ({ k with directive := e }.synthesize n) := by
  unfold synthesize
  refine .bind .get ?_
  rintro s s' ⟨m', hm, rfl⟩
  have hinherited : ({ k with directive := e } : Candidate).inherited? { s with model := m' } =
      k.inherited? s := by
    simp only [inherited?, hm.ancestors, hm.congr _ Property.name fun _ => rfl]
  rw [hinherited]
  split
  · exact dropInherited_lockstep h _
  · refine .bind (plan_lockstep h n) ?_
    rintro _ plan rfl
    exact wrap_lockstep h plan

end Candidate

theorem synthesizeAll_lockstep {ks ks' : List Candidate}
    (hks : List.Forall₂ (fun k k' => k'.unheld = k.unheld) ks ks') :
    Lockstep (List.Forall₂ fun r r' => r'.unheld = r.unheld)
      (synthesizeAll n ks) (synthesizeAll n ks') := by
  unfold synthesizeAll
  refine .bind (.mapM (S := fun r r' => r'.unheld = r.unheld) hks fun k k' hk => ?_)
    fun rs rs' hrs => ?_
  · rw [Candidate.eq_of_unheld hk]
    exact Candidate.synthesize_lockstep (congrArg Candidate.directive hk :) n
  · refine .bind .get ?_
    rintro s s' ⟨m', hm, rfl⟩
    exact .bind (.report _) fun _ _ _ => .pure hrs

/-! ### Placement and conclusion -/

theorem renameCollision_lockstep (c : ClassId) (claimed : List String) :
    Lockstep (fun _ _ => True) (renameCollision n c claimed) (renameCollision n c claimed) := by
  unfold renameCollision
  refine .bind .get ?_
  rintro s s' ⟨m', hm, rfl⟩
  dsimp only
  rw [hm.decl, hm.takenBeside, hm.scope, hm.qualifiedName]
  refine .bind (.claimName _ _ _ _) ?_
  rintro _ name rfl
  have hrenamed := hm.renameClass c name
  rw [hrenamed.qualifiedName]
  exact .bind (.setModel hrenamed) fun _ _ _ => .report _

theorem placeClass_lockstep (x : PlacementState) (c : ClassId) :
    Lockstep (fun a b => b = a) (placeClass n x c) (placeClass n x c) := by
  -- The name that is claimed in the end.
  have claim (renamed : List ClassId) : Lockstep (fun a b => b = a)
      (do return (⟨x.claimed ++ [(← get).model.qualifiedName c], renamed⟩ : PlacementState))
      (do return (⟨x.claimed ++ [(← get).model.qualifiedName c], renamed⟩ : PlacementState)) := by
    refine .bind .get ?_
    rintro s s' ⟨m', hm, rfl⟩
    exact .pure (by rw [hm.qualifiedName])
  unfold placeClass
  refine .bind .get ?_
  rintro s s' ⟨m', hm, rfl⟩
  dsimp only
  rw [hm.qualifiedName]
  split
  · exact .bind (renameCollision_lockstep c _) fun _ _ _ => claim _
  · exact claim _

theorem placeClasses_lockstep : Lockstep (fun a b => b = a) (placeClasses n) (placeClasses n) := by
  unfold placeClasses
  refine .bind .get ?_
  rintro s s' ⟨m', hm, rfl⟩
  dsimp only
  rw [hm.walk]
  refine .bind (.foldlM (R := fun a b => b = a) (fun c a b hab => ?_) rfl) ?_
  · subst hab
    exact placeClass_lockstep b c
  · rintro _ x rfl
    exact .bind (.reportIf _ _) fun _ _ _ => .pure rfl

namespace Pass

theorem writeSummary_lockstep (path : Value) :
    Lockstep (fun _ _ => True) (writeSummary path) (writeSummary path) := by
  unfold writeSummary
  refine .bind (.require _ (.of_eq rfl)) ?_
  rintro _ path rfl
  refine .bind .get ?_
  rintro s s' ⟨m', hm, rfl⟩
  refine .bind (.require _ (.of_eq rfl)) ?_
  rintro _ files rfl
  refine .bind (.modify fun _ _ ⟨m', hm, hs⟩ => ⟨m', hm, by rw [hs]⟩) fun _ _ _ => .report _

theorem conclude_lockstep (h : o'.unheld = o.unheld) (counters : Counters) :
    Lockstep (fun _ _ => True) ((⟨o, control, n⟩ : Pass).conclude counters)
      ((⟨o', control, n⟩ : Pass).conclude counters) := by
  have hsummary : o'.summary = o.summary := (congrArg Options.summary h :)
  unfold conclude
  dsimp only
  rw [hsummary]
  refine .bind (.forM _ fun _ => .report _) fun _ _ _ => ?_
  split
  · exact writeSummary_lockstep _
  · exact .pure trivial

/-- What two runs return that are to hold items differently. -/
structure SameOutcome (r r' : PassResult) : Prop where
  records : List.Forall₂ (fun r r' => r'.unheld = r.unheld) r.records r'.records
  renamed : r'.renamed = r.renamed
  counters : r'.counters = r.counters

/-- Two runs with valid options that differ in nothing else go together. -/
theorem run_lockstep (ho : o.Resolves) (ho' : o'.Resolves) (h : o'.unheld = o.unheld) :
    Lockstep SameOutcome (⟨o, control, n⟩ : Pass).run (⟨o', control, n⟩ : Pass).run := by
  unfold run
  refine .bind (choose_lockstep ho ho' h) fun ks ks' hks => ?_
  refine .bind (synthesizeAll_lockstep hks) fun rs rs' hrs => ?_
  refine .bind placeClasses_lockstep ?_
  rintro _ renamed rfl
  refine .bind .get ?_
  rintro s s' ⟨m', hm, rfl⟩
  exact .bind (conclude_lockstep h _) fun _ _ _ => .pure ⟨hrs, rfl, rfl⟩

end Pass

end Enfold
