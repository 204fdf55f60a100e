import Enfold.Pass.Wrapper
import Enfold.Proofs.Model.Move
import Enfold.Proofs.Model.Names

/-! # What wrapping does to a model

Wrapping one candidate adds one class and one property, or two if its content is mixed. The
candidate moves to the class, its list has the reference in the very place of the candidate, and
every other class and property stays as it is.
-/

namespace Enfold

/-- A property as its wrapper holds it, but for its type. -/
def Property.held (x : Property) (w : ClassId) (field : String) (d : Directive) : Property :=
  { x with
    multiplicity := .repeated
    field := if field = "" then x.field else field
    collectionKind := some d.collection.kind
    collectionType := some d.collection.typeName
    collectionInterface := d.interface
    instantiation := some d.instantiation
    owner := some w }

def Property.moved (x : Property) (w : ClassId) (field : String) (d : Directive) : Property :=
  { x.held w field d with
    valueType := if x.kind = .any then some ((x.valueType.filter (· ≠ "")).getD looseType)
      else x.valueType }

def Property.textRuns (w : ClassId) (d : Directive) : Property where
  name := textRunsName
  valueType := some "str"
  multiplicity := .repeated
  kind := .mixed
  synthetic := true
  collectionKind := some d.collection.kind
  collectionType := some d.collection.typeName
  collectionInterface := d.interface
  instantiation := some d.instantiation
  description := some "Text runs around the typed children, in document order"
  owner := some w

/-- The reference that stands in for a property. -/
def Property.standIn (x : Property) (owner w : ClassId) (field typeName : String) : Property where
  name := field
  valueType := some typeName
  field := field
  nillable := x.nillable
  required := x.required
  reference := some w
  description := x.description
  owner := some owner

namespace Model

variable {m : Model} {c d w : ClassId} {p q r : PropertyId}

theorem qualifiedName_unlink (hp : p ∈ (m.decl c).properties) (d : ClassId) :
    (m.unlink c p).qualifiedName d = m.qualifiedName d := by
  refine qualifiedName_congr (fun e => ?_) d
  obtain ⟨_, he⟩ := exists_decl_unlink hp e
  rw [he]
  exact ⟨rfl, rfl, rfl⟩

/-! ### Fitting the property to its wrapper -/

/-- The property of a candidate in its wrapper, before the reference is there. -/
def encase (m : Model) (k : Candidate) (w : ClassId) (field : String) : Model :=
  ((m.shift k.owner k.prop w field).setCollection k.prop k.directive).fitContent w k.prop

def extras (m : Model) (p : PropertyId) : List PropertyId :=
  if (m.prop p).kind = .mixed then [⟨m.properties.size⟩] else []

theorem eq_of_mem_extras (h : q ∈ m.extras p) : q = ⟨m.properties.size⟩ := by
  unfold extras at h
  split at h <;> simp_all

theorem end_notMem_extras :
    (⟨m.properties.size + (m.extras p).length⟩ : PropertyId) ∉ m.extras p := by
  unfold extras
  split <;> simp

variable {k : Candidate} {field : String}

theorem prop_setCollection (hp : p.index < m.properties.size) (d : Directive) :
    (m.setCollection p d).prop q = if q = p then { m.prop p with
        multiplicity := .repeated, collectionKind := some d.collection.kind
        collectionType := some d.collection.typeName, collectionInterface := d.interface
        instantiation := some d.instantiation }
      else m.prop q :=
  prop_modifyProperty hp _

theorem prop_fitted (hp : k.prop.index < m.properties.size) :
    ((m.shift k.owner k.prop w field).setCollection k.prop k.directive).prop q =
      if q = k.prop then (m.prop k.prop).held w field k.directive else m.prop q := by
  rw [prop_setCollection (by simpa using hp)]
  simp only [prop_shift hp, if_pos]
  split <;> rfl

theorem kind_fitted (hp : k.prop.index < m.properties.size) :
    (((m.shift k.owner k.prop w field).setCollection k.prop k.directive).prop k.prop).kind =
      (m.prop k.prop).kind := by
  rw [prop_fitted hp, if_pos rfl]
  rfl

theorem decl_encase (hp : k.prop.index < m.properties.size) (hc : k.owner.index < m.classes.size)
    (hw : w.index < m.classes.size) (hwc : w ≠ k.owner) : (m.encase k w field).decl d =
      if d = w then
        { m.decl w with properties := (m.decl w).properties ++ k.prop :: m.extras k.prop }
      else if d = k.owner then
        { m.decl k.owner with properties := (m.decl k.owner).properties.erase k.prop }
      else m.decl d := by
  unfold encase fitContent
  rw [kind_fitted hp]
  cases h : (m.prop k.prop).kind with
  | mixed =>
    dsimp only [addTextRuns]
    rw [decl_addProperty (by simpa [setCollection] using hw)]
    simp [extras, h, setCollection, decl_shift hc hw hwc]
    by_cases hd : d = w <;> simp [hd]
  | any =>
    simp [extras, h, loosenType, setCollection, decl_shift hc hw hwc]
  | element => simp [extras, h, setCollection, decl_shift hc hw hwc]
  | reference => simp [extras, h, setCollection, decl_shift hc hw hwc]

theorem prop_encase (hp : k.prop.index < m.properties.size) : (m.encase k w field).prop q =
    if q = k.prop then (m.prop k.prop).moved w field k.directive
    else if q ∈ m.extras k.prop then Property.textRuns w k.directive
    else m.prop q := by
  unfold encase fitContent
  rw [kind_fitted hp]
  cases h : (m.prop k.prop).kind with
  | mixed =>
    dsimp only [addTextRuns]
    rw [prop_addProperty, prop_fitted hp, prop_fitted hp, if_pos rfl]
    have hs : ((m.shift k.owner k.prop w field).setCollection k.prop k.directive).properties.size =
        m.properties.size := by simp [setCollection]
    rw [hs]
    by_cases hq : q = ⟨m.properties.size⟩
    · have : q ≠ k.prop := by
        rintro rfl
        simp [hq] at hp
      rw [if_pos hq, if_neg this, if_pos (by simp [extras, h, hq])]
      rfl
    · rw [if_neg hq, if_neg (show q ∉ m.extras k.prop by simp [extras, h, hq])]
      by_cases hqk : q = k.prop <;> simp [hqk, Property.moved, Property.held, h]
  | any =>
    unfold loosenType
    rw [prop_modifyProperty (by simpa [setCollection] using hp), prop_fitted hp, prop_fitted hp]
    by_cases hqk : q = k.prop <;> simp [hqk, Property.moved, Property.held, extras, h]
  | element =>
    rw [prop_fitted hp]
    by_cases hqk : q = k.prop <;> simp [hqk, Property.moved, Property.held, extras, h]
  | reference =>
    rw [prop_fitted hp]
    by_cases hqk : q = k.prop <;> simp [hqk, Property.moved, Property.held, extras, h]

@[simp] theorem size_fitContent (m : Model) (w : ClassId) (p : PropertyId) :
    (m.fitContent w p).classes.size = m.classes.size := by
  unfold fitContent
  split <;> simp [loosenType, addTextRuns]

theorem size_encase (m : Model) (k : Candidate) (w : ClassId) (field : String) :
    (m.encase k w field).classes.size = m.classes.size := by
  simp [encase, setCollection]

theorem size_properties_encase (hp : k.prop.index < m.properties.size) (w : ClassId)
    (field : String) :
    (m.encase k w field).properties.size = m.properties.size + (m.extras k.prop).length := by
  unfold encase fitContent
  rw [kind_fitted hp]
  cases h : (m.prop k.prop).kind <;>
    simp [setCollection, loosenType, addTextRuns, extras, h]

theorem Linked.fitContent (hm : m.Linked) (hw : w.index < m.classes.size) (p : PropertyId) :
    (m.fitContent w p).Linked := by
  unfold Model.fitContent
  split
  · exact hm
  · exact hm
  · exact hm.modifyProperty fun _ => rfl
  · exact hm.addProperty hw rfl

theorem Linked.fitted (hm : m.Linked) (h : k.prop ∈ (m.decl c).properties)
    (hw : w.index < m.classes.size) (field : String) :
    (((m.shift c k.prop w field).setCollection k.prop k.directive).fitContent w k.prop).Linked := by
  have hs : ((m.shift c k.prop w field).setCollection k.prop k.directive).Linked :=
    (hm.shift h hw field).modifyProperty fun _ => rfl
  exact hs.fitContent (by simpa [setCollection] using hw) k.prop

theorem Linked.encase (hm : m.Linked) (h : k.prop ∈ (m.decl k.owner).properties)
    (hw : w.index < m.classes.size) : (m.encase k w field).Linked :=
  hm.fitted h hw field

/-! ### The reference in its place -/

theorem insertIdx_erase_eq_map {l : List PropertyId} (hl : l.Nodup) (h : p ∈ l) :
    (l.erase p).insertIdx (placeFor (l.erase p).length (l.idxOf p)) r =
      l.map fun q => if q = p then r else q := by
  have hi := List.idxOf_lt_length_of_mem h
  have hplace : placeFor (l.erase p).length (l.idxOf p) = l.idxOf p := by
    rw [placeFor, if_neg (by omega), List.length_erase_of_mem h]
    omega
  rw [hplace, List.erase_eq_eraseIdx_of_idxOf rfl, List.insertIdx_eraseIdx_self (Nat.ne_of_lt hi)]
  clear hplace hi
  induction l with
  | nil => cases h
  | cons a l ih =>
    obtain ⟨ha, hl⟩ := List.nodup_cons.mp hl
    by_cases hap : a = p
    · subst hap
      have hid : ∀ q ∈ l, (if q = a then r else q) = id q := by
        intro q hq
        rw [if_neg]
        · rfl
        · rintro rfl
          exact ha hq
      simp [List.map_congr_left hid]
    · have hpl := (List.mem_cons.mp h).resolve_left (Ne.symm hap)
      rw [List.idxOf_cons_ne _ hap, List.set_cons_succ, ih hl hpl]
      simp [hap]

/-- The property list of a candidate's owner with another property in the candidate's place. -/
def substituted (m : Model) (k : Candidate) (r : PropertyId) : List PropertyId :=
  (m.decl k.owner).properties.map fun q => if q = k.prop then r else q

/-- The reference that a candidate leaves, before a class owns it. -/
def reference (m : Model) (k : Candidate) (w : ClassId) (field : String) : Property :=
  { (m.prop k.prop).standIn k.owner w field (m.qualifiedName w) with owner := none }

theorem addReference_eq_link (m : Model) (k : Candidate) (w : ClassId) (field : String)
    (slot : Nat) : m.addReference k w field slot =
      ((m.newProperty (m.reference k w field)).1.link k.owner ⟨m.properties.size⟩
        ((m.decl k.owner).properties.insertIdx (placeFor (m.decl k.owner).properties.length slot)
          ⟨m.properties.size⟩), ⟨m.properties.size⟩) := by
  have := insertProperty_eq_link (m.newProperty (m.reference k w field)).1 k.owner slot
    ⟨m.properties.size⟩
  exact congrArg (·, _) this

theorem Linked.addReference (hm : m.Linked) (hc : k.owner.index < m.classes.size) (w : ClassId)
    (field : String) (slot : Nat) : (m.addReference k w field slot).1.Linked := by
  rw [addReference_eq_link]
  apply (hm.newProperty rfl).link
  · simpa using hc
  · simp
  · rw [prop_newProperty_self]
    rfl
  · exact List.perm_insertIdx _ _ (placeFor_le _ _)

/-- The model in which a candidate is wrapped and referred to. -/
def rewire (m : Model) (k : Candidate) (w : ClassId) (plan : WrapperPlan) : Model :=
  let m' := m.encase k w plan.itemField
  (m'.newProperty (m'.reference k w plan.referenceField)).1.link k.owner ⟨m'.properties.size⟩
    (m.substituted k ⟨m'.properties.size⟩)

variable {plan : WrapperPlan}

/-- The property may come from any class. -/
theorem relink_of_owner (hm : m.Linked) (ho : (m.prop k.prop).owner = some c) :
    m.relink k w plan = .ok ((((m.shift c k.prop w plan.itemField).setCollection k.prop
      k.directive).fitContent w k.prop).addReference k w plan.referenceField
        ((m.decl c).properties.idxOf k.prop)) := by
  rw [relink, moveProperty_of_owner hm ho]
  rfl

theorem relink_of_mem (hm : m.Linked) (h : k.prop ∈ (m.decl k.owner).properties)
    (hw : w.index < m.classes.size) (hwk : w ≠ k.owner) : m.relink k w plan =
      .ok (m.rewire k w plan, ⟨m.properties.size + (m.extras k.prop).length⟩) := by
  have hp := hm.lt_of_mem h
  have hd : ((m.encase k w plan.itemField).decl k.owner).properties = _ :=
    congrArg ClassDecl.properties (decl_encase hp (class_lt_of_mem h) hw hwk)
  rw [if_neg (Ne.symm hwk), if_pos rfl] at hd
  have hr : m.relink k w plan = .ok ((m.encase k w plan.itemField).addReference k w
      plan.referenceField ((m.decl k.owner).properties.idxOf k.prop)) :=
    relink_of_owner hm (hm.mem_iff_owner.mp h)
  rw [hr, addReference_eq_link, hd, insertIdx_erase_eq_map (hm.nodup k.owner) h,
    ← size_properties_encase hp w plan.itemField]
  rfl

theorem size_rewire (m : Model) (k : Candidate) (w : ClassId) (plan : WrapperPlan) :
    (m.rewire k w plan).classes.size = m.classes.size := by
  simp [rewire, size_encase]

theorem size_properties_rewire (hp : k.prop.index < m.properties.size) :
    (m.rewire k w plan).properties.size = m.properties.size + (m.extras k.prop).length + 1 := by
  simp [rewire, size_properties_encase hp]

theorem decl_rewire (hp : k.prop.index < m.properties.size) (hc : k.owner.index < m.classes.size)
    (hw : w.index < m.classes.size) (hwk : w ≠ k.owner) (plan : WrapperPlan) :
    (m.rewire k w plan).decl d =
      if d = w then
        { m.decl w with properties := (m.decl w).properties ++ k.prop :: m.extras k.prop }
      else if d = k.owner then { m.decl k.owner with
        properties := m.substituted k ⟨m.properties.size + (m.extras k.prop).length⟩ }
      else m.decl d := by
  unfold rewire
  dsimp only
  rw [decl_link (by simpa [size_encase] using hc), size_properties_encase hp]
  simp only [decl_newProperty, decl_encase hp hc hw hwk]
  by_cases hd : d = k.owner
  · simp [hd, Ne.symm hwk]
  · simp [hd]

theorem prop_rewire (hp : k.prop.index < m.properties.size) (w : ClassId) (plan : WrapperPlan) :
    (m.rewire k w plan).prop q =
    if q = k.prop then (m.prop k.prop).moved w plan.itemField k.directive
    else if q ∈ m.extras k.prop then Property.textRuns w k.directive
    else if q = ⟨m.properties.size + (m.extras k.prop).length⟩ then
      (m.prop k.prop).standIn k.owner w plan.referenceField
        ((m.encase k w plan.itemField).qualifiedName w)
    else m.prop q := by
  have hn := size_properties_encase hp w plan.itemField
  unfold rewire
  dsimp only
  rw [prop_link (by simp)]
  by_cases hq : q = ⟨(m.encase k w plan.itemField).properties.size⟩
  · -- The reference comes after all that was there, so it is neither of the others.
    subst hq
    rw [if_pos rfl, prop_newProperty_self, hn, if_neg, if_neg, if_pos rfl, reference,
      prop_encase hp, if_pos rfl]
    · rfl
    · exact end_notMem_extras
    · intro e
      rw [← e] at hp
      exact absurd hp (by simp)
  · rw [if_neg hq, prop_newProperty_of_ne _ fun e => hq (PropertyId.eq_mk e), prop_encase hp]
    rw [hn] at hq
    simp only [if_neg hq]

theorem Linked.rewire (hm : m.Linked) (h : k.prop ∈ (m.decl k.owner).properties)
    (hw : w.index < m.classes.size) (hwk : w ≠ k.owner) : (m.rewire k w plan).Linked := by
  have hp := hm.lt_of_mem h
  have hc := class_lt_of_mem h
  have he : (m.encase k w plan.itemField).Linked := hm.encase h hw
  unfold Model.rewire
  refine (he.newProperty rfl).link (by simpa [size_encase] using hc) (by simp) ?_ ?_
  · rw [prop_newProperty_self]
    rfl
  · have hd : ((m.encase k w plan.itemField).decl k.owner).properties =
        (m.decl k.owner).properties.erase k.prop := by
      rw [decl_encase hp hc hw hwk, if_neg (Ne.symm hwk), if_pos rfl]
    rw [decl_newProperty, hd, substituted, ← insertIdx_erase_eq_map (hm.nodup k.owner) h]
    exact List.perm_insertIdx _ _ (placeFor_le _ _)

theorem qualifiedName_rewire (hc : k.owner.index < m.classes.size) :
    (m.rewire k w plan).qualifiedName d = (m.encase k w plan.itemField).qualifiedName d := by
  refine qualifiedName_congr (fun e => ?_) d
  unfold rewire
  dsimp only
  rw [decl_link (by simpa [size_encase] using hc)]
  by_cases he : e = k.owner <;> simp [he]

/-! ### The implementation of the wrapper -/

def implementationBeside (m : Model) (owner w : ClassId) : Option String :=
  ((m.decl owner).implementation.filter (· ≠ "")).map fun i =>
    besideLast i (implementationName (m.decl w).name)

theorem decl_implementWrapper (hw : w.index < m.classes.size) :
    (m.implementWrapper c w r).decl d = if d = w then { m.decl w with
        implementation := m.implementationBeside c w <|> (m.decl w).implementation }
      else m.decl d := by
  unfold implementWrapper implementationBeside
  cases (m.decl c).implementation.filter (· ≠ "") with
  | none => by_cases hd : d = w <;> simp [hd]
  | some i =>
    have : ((m.modifyClass w fun e => { e with
        implementation := some (besideLast i (implementationName (m.decl w).name)) }).decl d) = _ :=
      decl_modifyClass hw _
    exact this

theorem prop_implementWrapper (hr : r.index < m.properties.size) :
    (m.implementWrapper c w r).prop q = if q = r then { m.prop r with
        implementationType := m.implementationBeside c w <|> (m.prop r).implementationType }
      else m.prop q := by
  unfold implementWrapper implementationBeside
  cases (m.decl c).implementation.filter (· ≠ "") with
  | none => by_cases hq : q = r <;> simp [hq]
  | some i =>
    have : (m.modifyProperty r fun x => { x with
      implementationType := some (besideLast i (implementationName (m.decl w).name)) }).prop q =
        _ := prop_modifyProperty hr _
    exact this

theorem sizes_implementWrapper (m : Model) (c w : ClassId) (r : PropertyId) :
    (m.implementWrapper c w r).classes.size = m.classes.size ∧
      (m.implementWrapper c w r).properties.size = m.properties.size := by
  unfold implementWrapper
  split <;> simp [modifyFactory]

/-! ### One candidate wrapped -/

/-- What the wrapping of a candidate does to the classes and properties of a model. -/
structure Wraps (m : Model) (k : Candidate) (plan : WrapperPlan) (m' : Model) (w : ClassId)
    (r : PropertyId) : Prop where
  linked : m'.Linked
  wrapper_eq : w = ⟨m.classes.size⟩
  reference_eq : r = ⟨m.properties.size + (m.extras k.prop).length⟩
  size : m'.classes.size = m.classes.size + 1
  size_properties : m'.properties.size = m.properties.size + (m.extras k.prop).length + 1
  wrapper : ∃ i, m'.decl w = {
    name := plan.className, package := (m.decl k.owner).package
    properties := k.prop :: m.extras k.prop, parent := plan.parent
    source := (m.decl k.owner).source, implementation := i, isWrapper := true
    element := some (m.prop k.prop).name, description := some ("Wrapper for " ++ k.path) }
  owner : m'.decl k.owner = { m.decl k.owner with properties := m.substituted k r }
  class_eq : ∀ {d}, d ≠ w → d ≠ k.owner → m'.decl d = m.decl d
  moved : m'.prop k.prop = (m.prop k.prop).moved w plan.itemField k.directive
  textRuns : ∀ q ∈ m.extras k.prop, m'.prop q = Property.textRuns w k.directive
  reference : ∃ i, m'.prop r = { (m.prop k.prop).standIn k.owner w plan.referenceField
    (m'.qualifiedName w) with implementationType := i }
  prop_eq : ∀ {q}, q ≠ k.prop → q ∉ m.extras k.prop → q ≠ r → m'.prop q = m.prop q

/-- The plan puts the wrapper where it belongs: beside its owner or inside it. -/
structure Fits (m : Model) (k : Candidate) (plan : WrapperPlan) : Prop where
  parent : plan.parent = k.parent?
  package : plan.package = (m.decl k.owner).package

theorem eq_owner_of_parent? (h : k.parent? = some c) : c = k.owner := by
  unfold Candidate.parent? at h
  split at h <;> cases h
  rfl

@[simp] theorem snd_addWrapper (m : Model) (k : Candidate) (plan : WrapperPlan) :
    (m.addWrapper k plan).2 = ⟨m.classes.size⟩ := rfl

theorem decl_addWrapper_self (hf : m.Fits k plan) :
    (m.addWrapper k plan).1.decl ⟨m.classes.size⟩ = {
      name := plan.className, package := (m.decl k.owner).package, parent := plan.parent
      source := (m.decl k.owner).source, isWrapper := true
      element := some (m.prop k.prop).name, description := some ("Wrapper for " ++ k.path) } := by
  rw [addWrapper, decl_addClass_self]
  cases hplan : plan.parent with
  | none => simp [hf.package]
  | some c => simp [eq_owner_of_parent? (hf.parent ▸ hplan)]

theorem decl_addWrapper_of_ne (hd : d ≠ ⟨m.classes.size⟩) :
    (m.addWrapper k plan).1.decl d = m.decl d :=
  decl_addClass_of_ne _ _ fun e => hd (ClassId.eq_mk e)

theorem Linked.addWrapper (hm : m.Linked) (hf : m.Fits k plan)
    (hc : k.owner.index < m.classes.size) : (m.addWrapper k plan).1.Linked :=
  hm.addClass rfl fun _ e => eq_owner_of_parent? (hf.parent ▸ e) ▸ hc

theorem wraps_rewire (hm : m.Linked) (hf : m.Fits k plan)
    (h : k.prop ∈ (m.decl k.owner).properties) :
    m.Wraps k plan ((m.addWrapper k plan).1.rewire k ⟨m.classes.size⟩ plan) ⟨m.classes.size⟩
      ⟨m.properties.size + (m.extras k.prop).length⟩ := by
  have hwk : (⟨m.classes.size⟩ : ClassId) ≠ k.owner := by
    intro e
    have := class_lt_of_mem h
    rw [← e] at this
    exact absurd this (Nat.lt_irrefl _)
  have hw : (⟨m.classes.size⟩ : ClassId).index < (m.addWrapper k plan).1.classes.size := by
    simp [addWrapper]
  have hold {d : ClassId} : d ≠ ⟨m.classes.size⟩ → (m.addWrapper k plan).1.decl d = m.decl d :=
    decl_addWrapper_of_ne
  have hmem : k.prop ∈ ((m.addWrapper k plan).1.decl k.owner).properties := by
    rwa [hold (Ne.symm hwk)]
  have hp : k.prop.index < (m.addWrapper k plan).1.properties.size := hm.lt_of_mem h
  have hd (d) := decl_rewire (d := d) hp (class_lt_of_mem hmem) hw hwk plan
  have hq (q) := prop_rewire (q := q) hp ⟨m.classes.size⟩ plan
  have hr : (⟨m.properties.size + (m.extras k.prop).length⟩ : PropertyId) ≠ k.prop := by
    intro e
    have : k.prop.index < m.properties.size := hp
    rw [← e] at this
    exact absurd this (Nat.not_lt.mpr (Nat.le_add_right _ _))
  refine ⟨(hm.addWrapper hf (class_lt_of_mem h)).rewire hmem hw hwk, rfl, rfl, ?_,
    size_properties_rewire hp, ⟨none, ?_⟩, ?_, fun {d} hdw hdk => ?_, ?_, fun q hqe => ?_,
    ⟨none, ?_⟩, fun {q} hqk hqe hqr => ?_⟩
  · rw [size_rewire]
    simp [addWrapper]
  · rw [hd, if_pos rfl, decl_addWrapper_self hf]
    rfl
  · rw [hd, if_neg (Ne.symm hwk), if_pos rfl, substituted, hold (Ne.symm hwk), substituted]
    rfl
  · rw [hd, if_neg hdw, if_neg hdk, hold hdw]
  · rw [hq, if_pos rfl]
    rfl
  · have hqk : q ≠ k.prop := by
      rintro rfl
      have : k.prop.index = m.properties.size := congrArg PropertyId.index (eq_of_mem_extras hqe)
      exact absurd hp (by simp [this, addWrapper])
    rw [hq, if_neg hqk]
    exact if_pos hqe
  · rw [hq, if_neg hr]
    refine (if_neg end_notMem_extras).trans ((if_pos rfl).trans ?_)
    rw [qualifiedName_rewire (class_lt_of_mem hmem)]
    rfl
  · rw [hq, if_neg hqk]
    exact (if_neg hqe).trans (if_neg hqr)

namespace Wraps

variable {m' m'' : Model}

theorem not_lt (h : m.Wraps k plan m' w q) : ¬ w.index < m.classes.size := by
  rw [h.wrapper_eq]
  exact Nat.lt_irrefl _

section Places

variable (h : m.Wraps k plan m' w q)

include h

theorem ne_of_lt (hd : d.index < m.classes.size) : d ≠ w := by
  rintro rfl
  exact h.not_lt hd

theorem lt_or_eq (hd : d.index < m'.classes.size) : d.index < m.classes.size ∨ d = w := by
  rw [h.size, Nat.lt_succ_iff_lt_or_eq] at hd
  exact hd.imp_right fun e => h.wrapper_eq ▸ ClassId.eq_mk e

theorem sameBeside (hd : d ≠ w) : (m'.decl d).name = (m.decl d).name ∧
    (m'.decl d).parent = (m.decl d).parent ∧ (m'.decl d).package = (m.decl d).package := by
  by_cases hdk : d = k.owner
  · rw [hdk, h.owner]
    exact ⟨rfl, rfl, rfl⟩
  · rw [h.class_eq hd hdk]
    exact ⟨rfl, rfl, rfl⟩

theorem wrapper_decl (hf : m.Fits k plan) : (m'.decl w).name = plan.className ∧
    (m'.decl w).parent = k.parent? ∧ (m'.decl w).package = (m.decl k.owner).package := by
  obtain ⟨i, hdecl⟩ := h.wrapper
  rw [hdecl, ← hf.parent]
  exact ⟨rfl, rfl, rfl⟩

end Places

theorem old_eq (h : m.Wraps k plan m' w q) (hm : m.Linked)
    (hd : d.index < m.classes.size) : m'.qualifiedName d = m.qualifiedName d ∧
      (m'.decl d).package = (m.decl d).package ∧
        (m'.decl d).implementation = (m.decl d).implementation := by
  have hdecl {c : ClassId} (hc : c.index < m.classes.size) :
      ∃ ps, m'.decl c = { m.decl c with properties := ps } := by
    have hcw : c ≠ w := by
      rintro rfl
      exact h.not_lt hc
    by_cases hck : c = k.owner
    · exact ⟨_, by rw [hck, h.owner]⟩
    · exact ⟨_, h.class_eq hcw hck⟩
  obtain ⟨_, he⟩ := hdecl hd
  refine ⟨?_, by rw [he], by rw [he]⟩
  refine qualifiedName_congr_of (P := (·.index < m.classes.size)) (fun {c} hc => ?_)
    (fun _ hp => hm.parent_lt_size hp) hd
  obtain ⟨_, hc⟩ := hdecl hc
  rw [hc]
  exact ⟨rfl, rfl, rfl⟩

theorem wrapper_lt (h : m.Wraps k plan m' w q) : w.index < m'.classes.size := by
  rw [h.size, h.wrapper_eq]
  exact Nat.lt_succ_self _

theorem lt_size (h : m.Wraps k plan m' w q) (hd : d.index < m.classes.size) :
    d.index < m'.classes.size := by
  rw [h.size]
  exact Nat.lt_succ_of_lt hd

theorem ne_reference (h : m.Wraps k plan m' w r) (hq : (m'.prop q).multiplicity = .repeated) :
    q ≠ r := by
  rintro rfl
  obtain ⟨i, hi⟩ := h.reference
  rw [hi] at hq
  cases hq

/-- Nothing is said about implementations, the episode and the factories. -/
theorem congr (h : m.Wraps k plan m' w r) (hs : m''.classes.size = m'.classes.size)
    (hn : m''.properties.size = m'.properties.size)
    (hw : ∃ i, m''.decl w = { m'.decl w with implementation := i })
    (hd : ∀ {d}, d ≠ w → m''.decl d = m'.decl d)
    (hr : ∃ i, m''.prop r = { m'.prop r with implementationType := i })
    (hq : ∀ {q}, q ≠ r → m''.prop q = m'.prop q) (hk : k.owner ≠ w) :
    m.Wraps k plan m'' w r := by
  obtain ⟨i, hw⟩ := hw
  obtain ⟨j, hr⟩ := hr
  have hdecl (d) : (m''.decl d).parent = (m'.decl d).parent ∧
      (m''.decl d).package = (m'.decl d).package ∧ (m''.decl d).name = (m'.decl d).name ∧
      (m''.decl d).properties = (m'.decl d).properties := by
    by_cases hdw : d = w
    · simp [hdw, hw]
    · simp [hd hdw]
  refine { h with
    size := hs.trans h.size
    size_properties := hn.trans h.size_properties
    owner := (hd hk).trans h.owner
    class_eq := fun h₁ h₂ => (hd h₁).trans (h.class_eq h₁ h₂)
    prop_eq := fun h₁ h₂ h₃ => (hq h₃).trans (h.prop_eq h₁ h₂ h₃)
    linked := ?_, wrapper := ?_, moved := ?_, textRuns := ?_, reference := ?_ }
  · refine h.linked.congr (fun d => ⟨(hdecl d).1, (hdecl d).2.1⟩) (fun d => (hdecl d).2.2.2)
      fun q => ?_
    by_cases hqr : q = r
    · rw [hqr, hr]
    · rw [hq hqr]
  · obtain ⟨_, hw'⟩ := h.wrapper
    exact ⟨i, by rw [hw, hw']⟩
  · rw [hq (h.ne_reference (by rw [h.moved]; rfl)), h.moved]
  · intro q hqe
    rw [hq (h.ne_reference (by rw [h.textRuns q hqe]; rfl)), h.textRuns q hqe]
  · obtain ⟨_, hr'⟩ := h.reference
    have := qualifiedName_congr (fun d => ⟨(hdecl d).1, (hdecl d).2.1, (hdecl d).2.2.1⟩) w
    exact ⟨j, by rw [hr, hr', this]⟩

theorem implementWrapper (h : m.Wraps k plan m' w r) (hk : k.owner ≠ w) :
    m.Wraps k plan (m'.implementWrapper c w r) w r := by
  have hw := h.wrapper_lt
  have hr : r.index < m'.properties.size := by
    rw [h.size_properties, h.reference_eq]
    exact Nat.lt_succ_self _
  have hd (d) := decl_implementWrapper (c := c) (r := r) (d := d) hw
  have hq (q) := prop_implementWrapper (c := c) (w := w) (q := q) hr
  exact h.congr (sizes_implementWrapper m' c w r).1 (sizes_implementWrapper m' c w r).2
    ⟨_, (hd w).trans (if_pos rfl)⟩ (fun {d} hdw => (hd d).trans (if_neg hdw))
    ⟨_, (hq r).trans (if_pos rfl)⟩ (fun {q} hqr => (hq q).trans (if_neg hqr)) hk

theorem listInEpisode (h : m.Wraps k plan m' w r) (hk : k.owner ≠ w) :
    m.Wraps k plan (m'.listInEpisode c) w r :=
  h.congr rfl rfl ⟨_, rfl⟩ (fun _ => rfl) ⟨_, rfl⟩ (fun _ => rfl) hk

end Wraps

end Model
end Enfold
