import Enfold.Pass.Placement
import Enfold.Pass.Wrapper
import Enfold.Proofs.Except
import Enfold.Proofs.Model.Edit
import Enfold.Proofs.Model.Listing

/-! # Models that hold items differently

The collection of a wrapped field, its interface and the mode of its making are kept with the
property. Everything else in a model is decided without a look at them, so an edit that is made to
two models which differ in nothing else leaves them so.
-/

namespace Enfold

/-- A property but for how a wrapped field holds its items. -/
def Property.unheld (x : Property) : Property :=
  { x with
    collectionKind := none, collectionType := none, collectionInterface := .null
    instantiation := none }

namespace Model

variable {m m' : Model} {c d w : ClassId} {p q : PropertyId} {x x' : Property}

def Enclosed (m : Model) (p : PropertyId) : Prop :=
  ∀ c, (m.prop p).owner = some c → (m.decl c).isWrapper = true

theorem isWrapper_modifyClass {f : ClassDecl → ClassDecl} (hf : ∀ e, (f e).isWrapper = e.isWrapper)
    (d : ClassId) : ((m.modifyClass c f).decl d).isWrapper = (m.decl d).isWrapper := by
  rcases m.decl_modifyClass_or (c := c) f d with hd | hd <;> rw [hd]
  exact hf _

theorem isWrapper_attachProperty (c d : ClassId) (p : PropertyId) :
    ((m.attachProperty c p).decl d).isWrapper = (m.decl d).isWrapper :=
  isWrapper_modifyClass (m := m.modifyProperty p _) (fun _ => by rfl) d

theorem enclosed_attachProperty (hw : (m.decl w).isWrapper = true) :
    (m.attachProperty w p).Enclosed p := by
  intro c hc
  rw [isWrapper_attachProperty]
  by_cases hp : p.index < m.properties.size
  · rw [attachProperty_eq_link, prop_link hp, if_pos rfl] at hc
    cases hc
    exact hw
  · rw [prop_of_size_le (by simpa [attachProperty_eq_link] using hp)] at hc
    cases hc

/-- Two models that differ at most in how the fields of wrappers hold their items. -/
structure SameButHeld (m m' : Model) : Prop where
  classes : m'.classes = m.classes
  episode : m'.episode = m.episode
  factories : m'.factories = m.factories
  size : m'.properties.size = m.properties.size
  unheld : ∀ p, (m'.prop p).unheld = (m.prop p).unheld
  others : ∀ p, m.Enclosed p ∨ m'.prop p = m.prop p

namespace SameButHeld

theorem refl (m : Model) : m.SameButHeld m :=
  ⟨rfl, rfl, rfl, rfl, fun _ => rfl, fun _ => Or.inr rfl⟩

theorem prop_eq (h : m.SameButHeld m') (hm : m.Linked) (hc : (m.decl c).isWrapper = false)
    (hp : p ∈ (m.decl c).properties) : m'.prop p = m.prop p := by
  refine (h.others p).resolve_left fun he => ?_
  rw [he c (hm.mem_iff_owner.mp hp)] at hc
  cases hc

section Views

variable (h : m.SameButHeld m')
include h

/-- What does not look at how items are held is the same. -/
theorem congr {α : Type} (p : PropertyId) (f : Property → α) (hf : ∀ x : Property, f x.unheld = f x) :
    f (m'.prop p) = f (m.prop p) := by
  rw [← hf, h.unheld, hf]

theorem decl (c : ClassId) : m'.decl c = m.decl c := decl_congr h.classes c

theorem walk : m'.walk = m.walk := walk_congr (by rw [h.classes]) fun c => by rw [h.decl]

theorem subtree (c : ClassId) : m'.subtree c = m.subtree c :=
  subtree_congr (by rw [h.classes]) (fun c => by rw [h.decl]) c

theorem qualifiedName (c : ClassId) : m'.qualifiedName c = m.qualifiedName c :=
  qualifiedName_congr_classes h.classes c

theorem findClass? (name : String) : m'.findClass? name = m.findClass? name :=
  findClass?_congr_classes h.classes name

theorem classOfType? (name : Option String) : m'.classOfType? name = m.classOfType? name := by
  simp only [Model.classOfType?, h.walk, h.qualifiedName, h.decl]

theorem propertyNamed? (c : ClassId) (name : String) :
    m'.propertyNamed? c name = m.propertyNamed? c name := by
  simp only [Model.propertyNamed?, h.decl, h.congr _ Property.name fun _ => rfl]

theorem path (p : PropertyId) : m'.path p = m.path p := by
  simp only [Model.path, h.congr p Property.owner fun _ => rfl,
    h.congr p Property.name fun _ => rfl, h.qualifiedName]

theorem scope (c : ClassId) : m'.scope c = m.scope c := by
  simp only [Model.scope, h.decl, h.qualifiedName]

theorem namesInScope (package : Option String) (parent : Option ClassId) :
    m'.namesInScope package parent = m.namesInScope package parent := by
  simp only [Model.namesInScope, children, roots, classIds, h.decl, h.classes]

theorem takenBeside (c : ClassId) (claimed : List String) :
    m'.takenBeside c claimed = m.takenBeside c claimed := by
  simp only [Model.takenBeside, h.scope, h.walk, h.decl]

theorem ancestors (c : ClassId) : m'.ancestors c = m.ancestors c := by
  have within (n : Nat) (c : ClassId) : m'.basesWithin n c = m.basesWithin n c := by
    induction n generalizing c with
    | zero => rfl
    | succ n ih => simp only [basesWithin, h.decl, ih]
  rw [Model.ancestors, Model.ancestors, within, h.classes]

end Views

/-! ### Edits -/

section Edits

variable (h : m.SameButHeld m')
include h

theorem modifyClass {f : ClassDecl → ClassDecl} (hf : ∀ e, (f e).isWrapper = e.isWrapper) :
    (m.modifyClass c f).SameButHeld (m'.modifyClass c f) where
  classes := by rw [Model.modifyClass, h.classes, Model.modifyClass]
  episode := h.episode
  factories := h.factories
  size := h.size
  unheld := h.unheld
  others p := (h.others p).imp_left fun he d hd => (isWrapper_modifyClass hf d).trans (he d hd)

theorem modifyProperty {f g : Property → Property}
    (hu : (g (m'.prop p)).unheld = (f (m.prop p)).unheld)
    (ho : (∀ c, (f (m.prop p)).owner = some c → (m.decl c).isWrapper = true) ∨
      g (m'.prop p) = f (m.prop p)) :
    (m.modifyProperty p f).SameButHeld (m'.modifyProperty p g) := by
  have prop (q) : (m.modifyProperty p f).prop q = m.prop q ∧
        (m'.modifyProperty p g).prop q = m'.prop q ∨
      q = p ∧ (m.modifyProperty p f).prop q = f (m.prop p) ∧
        (m'.modifyProperty p g).prop q = g (m'.prop p) := by
    by_cases hq : q = p
    · subst hq
      by_cases hp : q.index < m.properties.size
      · exact Or.inr ⟨rfl, prop_modifyProperty_self hp f, prop_modifyProperty_self (h.size ▸ hp) g⟩
      · refine Or.inl ⟨?_, ?_⟩
        · rw [prop_of_size_le (by simpa using hp), prop_of_size_le (by simpa using hp)]
        · rw [prop_of_size_le (by simpa [h.size] using hp),
            prop_of_size_le (by simpa [h.size] using hp)]
    · exact Or.inl ⟨prop_modifyProperty_of_ne hq m f, prop_modifyProperty_of_ne hq m' g⟩
  refine ⟨h.classes, h.episode, h.factories, by simp [h.size], fun q => ?_, fun q => ?_⟩
  · rcases prop q with ⟨hq, hq'⟩ | ⟨-, hq, hq'⟩ <;> rw [hq, hq']
    · exact h.unheld q
    · exact hu
  · unfold Enclosed
    rcases prop q with ⟨hq, hq'⟩ | ⟨-, hq, hq'⟩ <;> rw [hq, hq']
    · exact h.others q
    · exact ho

theorem modifyProperty_alike {f : Property → Property}
    (hu : ∀ x x' : Property, x'.unheld = x.unheld → (f x').unheld = (f x).unheld)
    (ho : ∀ x, (f x).owner = x.owner) :
    (m.modifyProperty p f).SameButHeld (m'.modifyProperty p f) := by
  refine h.modifyProperty (hu _ _ (h.unheld p)) ((h.others p).imp (fun he => ?_) fun he => by rw [he])
  rw [ho]
  exact he

theorem newProperty (hu : x'.unheld = x.unheld) (ho : x.owner = none) :
    (m.newProperty x).1.SameButHeld (m'.newProperty x').1 := by
  have prop (q) : (m.newProperty x).1.prop q = m.prop q ∧ (m'.newProperty x').1.prop q = m'.prop q ∨
      (m.newProperty x).1.prop q = x ∧ (m'.newProperty x').1.prop q = x' := by
    by_cases hq : q.index = m.properties.size
    · obtain rfl := PropertyId.eq_mk hq
      refine Or.inr ⟨prop_newProperty_self x, ?_⟩
      rw [← h.size, prop_newProperty_self]
    · exact Or.inl ⟨prop_newProperty_of_ne x hq, prop_newProperty_of_ne x' (h.size ▸ hq)⟩
  refine ⟨h.classes, h.episode, h.factories, by simp [h.size], fun q => ?_, fun q => ?_⟩
  · rcases prop q with ⟨hq, hq'⟩ | ⟨hq, hq'⟩ <;> rw [hq, hq']
    · exact h.unheld q
    · exact hu
  · unfold Enclosed
    rcases prop q with ⟨hq, hq'⟩ | ⟨hq, hq'⟩ <;> rw [hq, hq']
    · exact h.others q
    · exact Or.inl fun c hc => by simp [ho] at hc

theorem addClass {e : ClassDecl} (he : e.isWrapper = true) (parent : Option ClassId) :
    (m.addClass e parent).1.SameButHeld (m'.addClass e parent).1 where
  classes := by
    cases parent <;> simp only [Model.addClass, h.classes, h.decl]
  episode := h.episode
  factories := h.factories
  size := h.size
  unheld := h.unheld
  others p := (h.others p).imp_left fun hp c hc => by
    by_cases hn : c.index = m.classes.size
    · obtain rfl := ClassId.eq_mk hn
      rw [decl_addClass_self]
      split <;> exact he
    · rw [decl_addClass_of_ne e parent hn]
      exact hp c hc

theorem addWrapper (k : Candidate) (e : Directive) (plan : WrapperPlan) :
    (m.addWrapper k plan).1.SameButHeld (m'.addWrapper { k with directive := e } plan).1 ∧
      (m'.addWrapper { k with directive := e } plan).2 = (m.addWrapper k plan).2 ∧
      ((m.addWrapper k plan).1.decl (m.addWrapper k plan).2).isWrapper = true := by
  unfold Model.addWrapper
  simp only [h.decl, h.congr _ Property.name fun _ => rfl]
  refine ⟨h.addClass rfl _, by simp [h.classes], ?_⟩
  rw [snd_addClass, decl_addClass_self]
  split <;> rfl

theorem attachProperty (hw : (m.decl w).isWrapper = true) :
    (m.attachProperty w p).SameButHeld (m'.attachProperty w p) := by
  unfold Model.attachProperty
  refine SameButHeld.modifyClass (h.modifyProperty ?_ (Or.inl ?_)) fun _ => rfl
  · exact congrArg (fun x : Property => { x with owner := some w }) (h.unheld p)
  · rintro c ⟨⟩
    exact hw

theorem insertProperty (hp : m'.prop p = m.prop p) (i : Int) :
    (m.insertProperty c i p).SameButHeld (m'.insertProperty c i p) := by
  unfold Model.insertProperty
  exact SameButHeld.modifyClass (h.modifyProperty (by rw [hp]) (Or.inr (by rw [hp]))) fun _ => rfl

theorem removeProperty (c : ClassId) (p : PropertyId) :
    Agree (fun a a' => a.1.SameButHeld a'.1 ∧ a'.2 = a.2 ∧
        ∀ d, (a.1.decl d).isWrapper = (m.decl d).isWrapper)
      (m.removeProperty c p) (m'.removeProperty c p) := by
  have hindex : m'.indexOf c p = m.indexOf c p := by
    simp only [indexOf, h.decl, h.congr p Property.name fun _ => rfl, h.qualifiedName]
  unfold Model.removeProperty
  rw [hindex]
  cases m.indexOf c p with
  | error e => exact .error e
  | ok i =>
    have hclass := h.modifyClass (c := c)
      (f := fun e => { e with properties := e.properties.eraseIdx i }) fun _ => rfl
    refine .ok ⟨hclass.modifyProperty ?_ (Or.inl fun c hc => ?_), rfl, fun d => ?_⟩
    · exact congrArg (fun x : Property => { x with owner := none }) (h.unheld p)
    · cases hc
    · exact isWrapper_modifyClass (f := fun e => { e with
        properties := e.properties.eraseIdx i }) (fun _ => rfl) d

theorem deleteProperty (p : PropertyId) :
    Agree (fun a a' => a.1.SameButHeld a'.1) (m.deleteProperty p) (m'.deleteProperty p) := by
  unfold Model.deleteProperty
  rw [h.congr p Property.owner fun _ => rfl]
  split
  · rw [h.congr p Property.name fun _ => rfl]
    exact .error _
  · exact (h.removeProperty _ p).mono fun a a' ha => ha.1

theorem moveProperty (hw : (m.decl w).isWrapper = true) (p : PropertyId) (field : Option String) :
    Agree (fun a a' => a.1.SameButHeld a'.1 ∧ a'.2 = a.2 ∧ a.1.Enclosed p ∧
        (a.1.decl w).isWrapper = true)
      (m.moveProperty p w field) (m'.moveProperty p w field) := by
  unfold Model.moveProperty
  rw [h.congr p Property.owner fun _ => rfl]
  split
  · rw [h.congr p Property.name fun _ => rfl]
    exact .error _
  · next c _ =>
    refine (h.removeProperty c p).bind ?_
    rintro ⟨n, slot⟩ ⟨n', slot'⟩ ⟨hn, hslot, hwrappers⟩
    have hw : (n.decl w).isWrapper = true := (hwrappers w).trans hw
    have attach {n n' : Model} (hn : n.SameButHeld n') (hw : (n.decl w).isWrapper = true) :
        (n.attachProperty w p).SameButHeld (n'.attachProperty w p) ∧ slot' = slot ∧
          (n.attachProperty w p).Enclosed p ∧ ((n.attachProperty w p).decl w).isWrapper = true :=
      ⟨hn.attachProperty hw, hslot, enclosed_attachProperty hw,
        (isWrapper_attachProperty _ _ _).trans hw⟩
    dsimp only
    split
    · next f _ =>
      refine .ok (attach (hn.modifyProperty_alike (fun _ _ he => ?_) fun _ => rfl) hw)
      exact congrArg (fun x : Property => { x with field := f }) he
    · exact .ok (attach hn hw)

theorem setCollection (hp : m.Enclosed p) (e e' : Directive) :
    (m.setCollection p e).SameButHeld (m'.setCollection p e') :=
  h.modifyProperty (congrArg (fun x : Property => { x with multiplicity := .repeated })
    (h.unheld p)) (Or.inl hp)

theorem loosenType (p : PropertyId) : (m.loosenType p).SameButHeld (m'.loosenType p) :=
  h.modifyProperty_alike (fun _ _ he => congrArg (fun x : Property =>
    { x with valueType := some ((x.valueType.filter (· ≠ "")).getD looseType) }) he) fun _ => rfl

theorem addProperty (hw : (m.decl w).isWrapper = true) (hu : x'.unheld = x.unheld)
    (ho : x.owner = none) : (m.addProperty w x).SameButHeld (m'.addProperty w x') := by
  rw [addProperty_eq, addProperty_eq, h.size]
  exact (h.newProperty hu ho).attachProperty hw

theorem fitContent (hw : (m.decl w).isWrapper = true) (p : PropertyId) :
    (m.fitContent w p).SameButHeld (m'.fitContent w p) := by
  unfold Model.fitContent
  rw [h.congr p Property.kind fun _ => rfl]
  split
  · exact h
  · exact h
  · exact h.loosenType p
  · exact h.addProperty hw rfl rfl

theorem addReference (k : Candidate) (e : Directive) (field : String) (slot : Nat) :
    (m.addReference k w field slot).1.SameButHeld
        (m'.addReference { k with directive := e } w field slot).1 ∧
      (m'.addReference { k with directive := e } w field slot).2 =
        (m.addReference k w field slot).2 := by
  unfold Model.addReference
  simp only [h.qualifiedName, h.congr _ Property.nillable fun _ => rfl,
    h.congr _ Property.required fun _ => rfl, h.congr _ Property.description fun _ => rfl,
    snd_newProperty, h.size, and_true]
  refine (h.newProperty rfl rfl).insertProperty ?_ _
  rw [prop_newProperty_self, ← h.size, prop_newProperty_self]

/-- A wrapper takes in the same property in both, whatever they hold it in. -/
theorem relink (k : Candidate) (e : Directive) (hw : (m.decl w).isWrapper = true)
    (plan : WrapperPlan) : Agree (fun a a' => a.1.SameButHeld a'.1 ∧ a'.2 = a.2)
      (m.relink k w plan) (m'.relink { k with directive := e } w plan) := by
  refine (h.moveProperty hw k.prop (some plan.itemField)).bind ?_
  rintro ⟨n, slot⟩ ⟨n', _⟩ ⟨hn, rfl, hp, hw⟩
  exact .ok (((hn.setCollection hp k.directive e).fitContent hw k.prop).addReference k e _ _)

theorem modifyFactory (package : Option String) (f : Factory → Factory) :
    (m.modifyFactory package f).SameButHeld (m'.modifyFactory package f) :=
  { h with factories := by rw [Model.modifyFactory, Model.modifyFactory, h.factories] }

theorem implementWrapper (c w : ClassId) (r : PropertyId) :
    (m.implementWrapper c w r).SameButHeld (m'.implementWrapper c w r) := by
  unfold Model.implementWrapper
  rw [h.decl]
  split
  · exact h
  · next i _ =>
    have hclass := h.modifyClass (c := w) (f := fun e => { e with
      implementation := some (besideLast i (implementationName (m.decl w).name)) }) fun _ => rfl
    have hlinked := hclass.modifyProperty_alike (p := r) (f := fun q => { q with
      implementationType := some (besideLast i (implementationName (m.decl w).name)) })
      (fun _ _ he => congrArg (fun x : Property => { x with
        implementationType := some (besideLast i (implementationName (m.decl w).name)) }) he)
      fun _ => rfl
    simp only [h.decl]
    rw [hlinked.decl, hlinked.qualifiedName]
    exact hlinked.modifyFactory _ _

theorem listInEpisode (c : ClassId) : (m.listInEpisode c).SameButHeld (m'.listInEpisode c) :=
  { h with
    episode := by rw [Model.listInEpisode, Model.listInEpisode, h.episode, h.qualifiedName] }

/-! ### Renaming -/

theorem followEpisode (old new : String) :
    (m.followEpisode old new).SameButHeld (m'.followEpisode old new) := by
  unfold Model.followEpisode
  rw [h.episode, h.findClass?]
  split
  · exact h
  · split
    · exact h
    · split <;> exact { h with episode := rfl }

theorem followFactory (c : ClassId) (old new : String) :
    (m.followFactory c old new).SameButHeld (m'.followFactory c old new) := by
  unfold Model.followFactory
  simp only [h.decl, h.factories]
  split
  · exact h
  · split
    · exact h.modifyFactory _ _
    · exact h

theorem setImplementation (c : ClassId) (i : String) :
    (m.setImplementation c i).SameButHeld (m'.setImplementation c i) := by
  have hall : m'.walkProperties = m.walkProperties := by
    simp only [walkProperties, h.walk, h.decl]
  unfold Model.setImplementation
  rw [hall]
  refine SameButHeld.modifyClass ?_ fun _ => rfl
  clear hall
  generalize m.walkProperties = ps
  induction ps generalizing m m' with
  | nil => exact h
  | cons p ps ih =>
    rw [List.foldl_cons, List.foldl_cons, h.congr p Property.reference fun _ => rfl]
    split
    · refine ih (h.modifyProperty_alike (fun _ _ he => ?_) fun _ => rfl)
      exact congrArg (fun x : Property => { x with implementationType := some i }) he
    · exact ih h

theorem renameClass (c : ClassId) (name : String) :
    (m.renameClass c name).SameButHeld (m'.renameClass c name) := by
  have hrelabel : (m.relabel c name).SameButHeld (m'.relabel c name) := by
    have hname := h.modifyClass (c := c) (f := fun d => { d with name := name }) fun _ => rfl
    unfold relabel
    simp only [h.decl, hname.decl]
    generalize Option.bind _ (renamedImplementation? (m.decl c).name name) = renamed
    cases renamed with
    | some i => exact hname.setImplementation c i
    | none => exact hname
  have hbefore : ((m'.subtree c).map fun k => (k, m'.qualifiedName k)) =
      (m.subtree c).map fun k => (k, m.qualifiedName k) := by
    simp only [h.subtree, h.qualifiedName]
  rw [renameClass_eq, renameClass_eq, hbefore]
  generalize (m.subtree c).map (fun k => (k, m.qualifiedName k)) = es
  generalize m.relabel c name = n, m'.relabel c name = n' at hrelabel
  induction es generalizing n n' with
  | nil => exact hrelabel
  | cons e es ih =>
    refine ih _ _ ?_
    unfold follow
    rw [hrelabel.qualifiedName]
    exact (hrelabel.followEpisode _ _).followFactory _ _ _

end Edits

end SameButHeld
end Model
end Enfold
