import Enfold.Proofs.Binding.Kept
import Enfold.Proofs.Model.Held

/-! # Documents do not tell how items are held

Two models that differ only in how the fields of wrappers hold their items read the same documents,
and what they have read is written alike. The objects of a wrapper hold the same items, in
containers of any kind, and have no container at first or an empty one. All other objects have the
same fields.
-/

namespace Enfold

/-- No type by which elements are read means a wrapper. -/
def Model.ReadsNoWrapper (m : Model) : Prop :=
  ∀ c ∈ m.walk, ∀ p ∈ Binding.itemProperties m c, ∀ name ∈ (m.prop p).typeNames,
    ∀ d ∈ m.classOfType? name, (m.decl d).isWrapper = false

instance (m : Model) : Decidable m.ReadsNoWrapper :=
  inferInstanceAs (Decidable (∀ c ∈ _, _))

namespace Binding

variable {m m' : Model} {c d w : ClassId} {p q : PropertyId} {x x' : Property} {f tag : String}
  {fs fs' gs gs' : Fields} {xs xs' : List Datum} {v v' : Datum} {o o' : Option Datum}
  {ws ws' : List ValueWriter} {k k' : Child} {ks ks' : List Child} {s s' : Progress}
  {e parent : Xml.Element} {text : String}

def gathers (x : Property) : Bool :=
  !x.isAttribute && x.reference.isNone && (x.kind = .mixed || x.multiplicity = .repeated)

theorem gathers_eq_true : gathers x = true ↔ x.isAttribute = false ∧ x.reference = none ∧
    (x.kind = .mixed ∨ x.multiplicity = .repeated) := by
  simp [gathers, and_assoc]

/-- What is called like the runs of text gathers them in the field of that name. -/
def KeepsRuns (m : Model) (c : ClassId) : Prop :=
  Mixes m c → ∀ q ∈ m.propertyNamed? c textRunsName,
    (m.prop q).field = textRunsName ∧ gathers (m.prop q) = true

instance (m : Model) (c : ClassId) : Decidable (KeepsRuns m c) :=
  inferInstanceAs (Decidable (_ → _))

/-- What an object gathers has a field of its own. -/
structure GathersApart (m : Model) : Prop where
  nodup : ∀ c ∈ m.walk, (m.decl c).isWrapper = false → (m.fields c).Nodup
  runs : ∀ c ∈ m.walk, KeepsRuns m c

instance (m : Model) : Decidable (GathersApart m) :=
  decidable_of_iff ((∀ c ∈ m.walk, (m.decl c).isWrapper = false → (m.fields c).Nodup) ∧
    ∀ c ∈ m.walk, KeepsRuns m c) ⟨fun ⟨h₁, h₂⟩ => ⟨h₁, h₂⟩, fun h => ⟨h.1, h.2⟩⟩

/-! ### Values -/

def SameWriter (w w' : ValueWriter) : Prop := ∀ x x' : Property, x'.name = x.name → w' x' = w x

/-- What two models have read of one element as a value. -/
inductive SameValue (m m' : Model) : Datum → Datum → Prop
  | text (s : String) : SameValue m m' (.text s) (.text s)
  | element (e : Xml.Element) : SameValue m m' (.element e) (.element e)
  | object (c : ClassId) {fs fs' : Fields}
      (h : SameWriter (writer m (.object c fs)).value (writer m' (.object c fs')).value) :
      SameValue m m' (.object c fs) (.object c fs')

theorem sameWriter_plain (s : String) :
    SameWriter (writer m (.text s)).value (writer m' (.text s)).value := by
  intro x x' hx
  simp [writer, Datum.text, Writer.ofScalar, Writer.plain, hx, Datum.plain]

namespace SameValue

theorem writer (h : SameValue m m' v v') : SameWriter (writer m v).value (writer m' v').value := by
  cases h with
  | text s => exact sameWriter_plain s
  | element e => exact fun _ _ _ => rfl
  | object c h => exact h

theorem attributeText (h : SameValue m m' v v') :
    Binding.attributeText m' v' = Binding.attributeText m v := by
  cases h <;> rfl

theorem textOf (h : SameValue m m' v v') : Binding.textOf v' = Binding.textOf v := by
  cases h <;> rfl

theorem textPart (h : SameValue m m' v v') : Binding.textPart v' = Binding.textPart v := by
  cases h <;> rfl

theorem isNull (h : SameValue m m' v v') : v.isNull = false ∧ v'.isNull = false := by
  cases h <;> exact ⟨rfl, rfl⟩

theorem items (h : SameValue m m' v v') : Agree (List.Forall₂ SameWriter)
    (Binding.writer m v).items (Binding.writer m' v').items := by
  cases h with
  | text s =>
    refine .ok ?_
    rw [List.forall₂_map_left_iff, List.forall₂_map_right_iff, List.forall₂_same]
    exact fun c _ => sameWriter_plain c.toString
  | element e =>
    refine .ok ?_
    rw [List.forall₂_map_left_iff, List.forall₂_map_right_iff, List.forall₂_same]
    exact fun _ _ _ _ _ => rfl
  | object c h => exact .error _

theorem partsOf (h : SameValue m m' v v') :
    Agree (List.Forall₂ (SameValue m m')) (Binding.partsOf v) (Binding.partsOf v') := by
  cases h with
  | text s =>
    refine .ok ?_
    rw [List.forall₂_map_left_iff, List.forall₂_map_right_iff, List.forall₂_same]
    exact fun c _ => .text c.toString
  | element e =>
    refine .ok ?_
    rw [List.forall₂_map_left_iff, List.forall₂_map_right_iff, List.forall₂_same]
    exact fun e _ => .element e
  | object c h => exact .error _

theorem isTruthy (h : SameValue m m' v v') : v'.isTruthy = v.isTruthy := by
  cases h <;> rfl

end SameValue

theorem valueWriters_same (h : List.Forall₂ (SameValue m m') xs xs') :
    List.Forall₂ SameWriter (valueWriters m xs) (valueWriters m' xs') := by
  rw [valueWriters, valueWriters, List.forall₂_map_left_iff, List.forall₂_map_right_iff]
  exact h.imp fun _ _ hv => hv.writer

theorem writeItems_same (h : List.Forall₂ SameWriter ws ws') (hx : x'.name = x.name)
    (parent : Xml.Element) : writeItems x' parent ws' = writeItems x parent ws := by
  induction h generalizing parent with
  | nil => rfl
  | cons hw _ ih =>
    unfold writeItems at ih ⊢
    rw [List.foldlM_cons, List.foldlM_cons, hw x x' hx]
    exact bind_congr ih

theorem writeMixedItems_same (h : List.Forall₂ SameWriter ws ws')
    (hr : List.Forall₂ (SameValue m m') xs xs') (hx : x'.name = x.name) (parent : Xml.Element) :
    writeMixedItems x' parent ws' xs' = writeMixedItems x parent ws xs := by
  induction h generalizing parent xs xs' with
  | nil => cases hr <;> rfl
  | cons hw _ ih =>
    cases hr with
    | nil =>
      rw [writeMixedItems, writeMixedItems, hw x x' hx]
      exact bind_congr fun z => ih .nil _
    | cons hrun hr =>
      rw [writeMixedItems, writeMixedItems, hw x x' hx, hrun.textOf]
      exact bind_congr fun z => bind_congr fun run => ih hr _

theorem writeMixed_same
    (hi : Agree (List.Forall₂ SameWriter) (itemsOf (fieldWriters m fs) x.field)
      (itemsOf (fieldWriters m' fs') x'.field))
    (hr : Agree (List.Forall₂ (SameValue m m')) (runsOf (fieldWriters m fs))
      (runsOf (fieldWriters m' fs'))) (hx : x'.name = x.name) (parent : Xml.Element) :
    writeMixed (fieldWriters m' fs') x' parent = writeMixed (fieldWriters m fs) x parent := by
  unfold writeMixed
  generalize runsOf (fieldWriters m fs) = runs, runsOf (fieldWriters m' fs') = runs' at hr
  generalize itemsOf (fieldWriters m fs) x.field = items,
    itemsOf (fieldWriters m' fs') x'.field = items' at hi
  cases hr with
  | error e => rfl
  | ok hr =>
    cases hi with
    | error e => rfl
    | ok hi =>
      cases hr with
      | nil => exact writeMixedItems_same hi (List.Forall₂.nil (R := SameValue m m')) hx _
      | cons hrun hr =>
        change (textPart _).bind _ = (textPart _).bind _
        rw [hrun.textPart]
        exact bind_congr fun run => writeMixedItems_same hi hr hx _

/-! ### The objects of wrappers -/

def SameItems (m m' : Model) (f : String) (fs fs' : Fields) : Prop :=
  ∃ xs xs', Instance.Has f fs xs ∧ Instance.Has f fs' xs' ∧ List.Forall₂ (SameValue m m') xs xs'

theorem SameItems.itemsOf (h : SameItems m m' f fs fs') :
    Agree (List.Forall₂ SameWriter) (Binding.itemsOf (fieldWriters m fs) f)
      (Binding.itemsOf (fieldWriters m' fs') f) := by
  obtain ⟨xs, xs', hxs, hxs', hxx⟩ := h
  rw [itemsOf_has hxs, itemsOf_has hxs']
  exact .ok (valueWriters_same hxx)

theorem SameItems.runsOf (h : SameItems m m' textRunsName fs fs') :
    Agree (List.Forall₂ (SameValue m m')) (Binding.runsOf (fieldWriters m fs))
      (Binding.runsOf (fieldWriters m' fs')) := by
  obtain ⟨xs, xs', hxs, hxs', hxx⟩ := h
  rw [runsOf_has hxs, runsOf_has hxs']
  exact .ok hxx

theorem inline_same (hm : m.SameButHeld m') (h : ∀ f, SameItems m m' f fs fs')
    (parent : Xml.Element) : (writer m' (.object w fs')).inline parent =
      (writer m (.object w fs)).inline parent := by
  have hwrite : writeWrappedProperty m' (fieldWriters m' fs') =
      writeWrappedProperty m (fieldWriters m fs) := by
    funext parent q
    have hname := hm.congr q Property.name fun _ => rfl
    have hfield := hm.congr q Property.field fun _ => rfl
    have hitems := (h (m.prop q).field).itemsOf
    unfold writeWrappedProperty
    dsimp only
    rw [hm.congr q Property.synthetic fun _ => rfl, hm.congr q Property.kind fun _ => rfl]
    split
    · rfl
    · split
      · exact writeMixed_same (hfield ▸ hitems) (h _).runsOf hname parent
      · rw [hfield]
        generalize itemsOf (fieldWriters m fs) (m.prop q).field = items,
          itemsOf (fieldWriters m' fs') (m.prop q).field = items' at hitems
        cases hitems with
        | error e => rfl
        | ok hi => exact writeItems_same hi hname parent
  change (m'.decl w).properties.foldlM (writeWrappedProperty m' (fieldWriters m' fs')) parent =
    (m.decl w).properties.foldlM (writeWrappedProperty m (fieldWriters m fs)) parent
  rw [hm.decl, hwrite]

/-! ### What is appended to containers -/

section Append

open Instance

theorem append_of_container {kind : ContainerKind}
    (hd : Assoc.get? f fs = some (.container kind xs)) : append m c fs v (some f) =
      (wrappedField m c (some f)).map fun _ => Assoc.put f (.container kind (xs ++ [v])) fs := by
  unfold append items
  cases hx : wrappedField m c (some f) with
  | error e => rfl
  | ok x =>
    obtain rfl := field_of_wrappedField hx
    simp [hd, bind, Except.bind, pure, Except.pure, Except.map, push, Datum.isNull]

theorem append_of_text {t : String} (hd : Assoc.get? f fs = some (.text t)) :
    append m c fs v (some f) =
      (wrappedField m c (some f) >>= fun _ => .error (.misuse .noSuchAttribute)) := by
  unfold append items
  cases hx : wrappedField m c (some f) with
  | error e => rfl
  | ok x =>
    obtain rfl := field_of_wrappedField hx
    simp [hd, bind, Except.bind, pure, Except.pure, push, Datum.isNull, Datum.text, Value.isNull]

theorem append_of_none (hd : Assoc.get? f fs = none) : append m c fs v (some f) =
    (wrappedField m c (some f) >>= fun x =>
      if x.instantiation = some .byCaller then .error (.noContainer (m.qualifiedName c) f)
      else match newContainer x with
        | .container kind _ =>
          .ok (Assoc.put f (.container kind [v]) (Assoc.put f (newContainer x) fs))
        | _ => .error (.misuse .noSuchAttribute)) := by
  unfold append items
  cases hx : wrappedField m c (some f) with
  | error e => rfl
  | ok x =>
    obtain rfl := field_of_wrappedField hx
    obtain ⟨kind, hk⟩ := exists_newContainer x
    by_cases hi : x.instantiation = some .byCaller
    · simp [hd, hi, bind, Except.bind, pure, Except.pure, Datum.isNull, Datum.null, Value.isNull]
    · simp [hd, hi, hk, bind, Except.bind, pure, Except.pure, push, Datum.isNull]

theorem wrappedField_same (hm : m.SameButHeld m') (c : ClassId) (field : Option String) :
    Agree (fun x x' => x'.unheld = x.unheld) (wrappedField m c field)
      (wrappedField m' c field) := by
  have find (fits : Property → Bool) (hf : ∀ x : Property, fits x.unheld = fits x)
      (ps : List PropertyId) : Option.Rel (fun x x' => x'.unheld = x.unheld)
        ((ps.map m.prop).find? fits) ((ps.map m'.prop).find? fits) := by
    induction ps with
    | nil => exact .none
    | cons p ps ih =>
      rw [List.map_cons, List.map_cons, List.find?_cons, List.find?_cons, hm.congr p fits hf]
      split
      · exact .some (hm.unheld p)
      · exact ih
  unfold wrappedField
  dsimp only
  rw [hm.decl, hm.qualifiedName]
  generalize hfits : (fun p : Property => (_ : Bool)) = fits
  have hfind := find fits (fun _ => by subst hfits; cases field <;> rfl) (m.decl c).properties
  revert hfind
  generalize ((m.decl c).properties.map m.prop).find? fits = y,
    ((m.decl c).properties.map m'.prop).find? fits = y'
  rintro (h | _)
  · exact .ok h
  · exact .error _

theorem wrappedField_eq (hm : m.SameButHeld m') (hl : m.Linked)
    (hw : (m.decl c).isWrapper = false) (field : Option String) :
    wrappedField m' c field = wrappedField m c field := by
  have hprops : (m.decl c).properties.map m'.prop = (m.decl c).properties.map m.prop :=
    List.map_congr_left fun q hq => hm.prop_eq hl hw hq
  unfold wrappedField
  rw [hm.decl, hprops, hm.qualifiedName]

/-- A property is what its field means, or shares the field with that. -/
theorem exists_wrappedField (hp : p ∈ (m.decl c).properties) :
    ∃ x, wrappedField m c (some (m.prop p).field) = .ok x := by
  unfold wrappedField
  dsimp only
  cases hf : ((m.decl c).properties.map m.prop).find? fun y => y.field = (m.prop p).field with
  | some x => exact ⟨x, rfl⟩
  | none =>
    have := List.find?_eq_none.mp hf (m.prop p) (List.mem_map_of_mem hp)
    simp at this

theorem exists_ensureContainer (hp : p ∈ (m.decl c).properties) (fs : Fields) :
    ∃ gs, ensureContainer m c fs (m.prop p) = .ok gs ∧
      ∀ f, f = (m.prop p).field ∨ Assoc.contains f fs = true → Assoc.contains f gs = true := by
  unfold ensureContainer
  by_cases hc : Assoc.contains (m.prop p).field fs = true
  · exact ⟨fs, if_pos hc, by rintro f (rfl | hf) <;> assumption⟩
  · obtain ⟨x, hx⟩ := exists_wrappedField hp
    refine ⟨Assoc.put (m.prop p).field (newContainer (m.prop p)) fs, ?_, fun f hf => ?_⟩
    · rw [if_neg hc, setItems, hx]
      exact congrArg (fun f => Except.ok (Assoc.put f (newContainer (m.prop p)) fs))
        (field_of_wrappedField hx)
    · rw [Assoc.contains, Assoc.get?_put]
      split
      · rfl
      · next hne => exact hf.resolve_left (Ne.symm hne)

end Append

/-! ### Reading into a wrapper -/

/-- Two objects of a wrapper that hold the same items, with containers in the next fields. -/
structure Gathering (m m' : Model) (ready : String → Prop) (fs fs' : Fields) : Prop where
  items : ∀ f, SameItems m m' f fs fs'
  ready : ∀ f, ready f → Assoc.contains f fs = true ∧ Assoc.contains f fs' = true

theorem Gathering.mono {ready ready' : String → Prop} (h : Gathering m m' ready fs fs')
    (hr : ∀ f, ready' f → ready f) : Gathering m m' ready' fs fs' :=
  ⟨h.items, fun f hf => h.ready f (hr f hf)⟩

theorem Gathering.append {ready : String → Prop} (hm : m.SameButHeld m')
    (h : Gathering m m' ready fs fs') (hf : ready f) (hv : SameValue m m' v v') :
    Agree (Gathering m m' ready) (Instance.append m w fs v (some f))
      (Instance.append m' w fs' v' (some f)) := by
  -- A field that has a container keeps it.
  have container {fs : Fields} {xs : List Datum} (hs : Instance.Has f fs xs)
      (hc : Assoc.contains f fs = true) : ∃ kind, Assoc.get? f fs = some (.container kind xs) := by
    refine hs.resolve_right fun hn => ?_
    rw [Assoc.contains, hn.1] at hc
    cases hc
  obtain ⟨xs, xs', hxs, hxs', hxx⟩ := h.items f
  obtain ⟨kind, hk⟩ := container hxs (h.ready f hf).1
  obtain ⟨kind', hk'⟩ := container hxs' (h.ready f hf).2
  rw [append_of_container hk, append_of_container hk']
  refine (wrappedField_same hm w (some f)).map fun _ _ _ => ⟨fun g => ?_, fun g hg => ?_⟩
  · by_cases hgf : f = g
    · subst hgf
      exact ⟨_, _, Or.inl ⟨kind, Assoc.get?_put_self _ _ _⟩,
        Or.inl ⟨kind', Assoc.get?_put_self _ _ _⟩, List.rel_append hxx (.cons hv .nil)⟩
    · obtain ⟨ys, ys', hys, hys', hyy⟩ := h.items g
      exact ⟨ys, ys', hys.congr (Assoc.get?_put_of_ne hgf _ _),
        hys'.congr (Assoc.get?_put_of_ne hgf _ _), hyy⟩
  · unfold Assoc.contains
    rw [Assoc.get?_put, Assoc.get?_put]
    split
    · exact ⟨rfl, rfl⟩
    · exact h.ready g hg

theorem Gathering.ensureContainer {ready : String → Prop} (hm : m.SameButHeld m')
    (h : Gathering m m' ready fs fs') (hp : p ∈ (m.decl w).properties) :
    Agree (Gathering m m' fun f => f = (m.prop p).field ∨ ready f)
      (Instance.ensureContainer m w fs (m.prop p))
      (Instance.ensureContainer m' w fs' (m'.prop p)) := by
  have hfield := hm.congr p Property.field fun _ => rfl
  obtain ⟨gs, hg, hready⟩ := exists_ensureContainer hp fs
  obtain ⟨gs', hg', hready'⟩ := exists_ensureContainer ((hm.decl w).symm ▸ hp) fs'
  rw [hg, hg']
  refine .ok ⟨fun f => ?_, fun f hf => ?_⟩
  · obtain ⟨xs, xs', hxs, hxs', hxx⟩ := h.items f
    by_cases hf : f = (m.prop p).field
    · subst hf
      exact ⟨xs, xs', (Instance.has_of_ensureContainer hxs hg).1,
        hfield ▸ (Instance.has_of_ensureContainer (hfield ▸ hxs') hg').1, hxx⟩
    · obtain ⟨ys, ys', hys, hys', -⟩ := h.items (m.prop p).field
      refine ⟨xs, xs', hxs.congr ((Instance.has_of_ensureContainer hys hg).2 f hf), ?_, hxx⟩
      exact hxs'.congr ((Instance.has_of_ensureContainer (hfield ▸ hys') hg').2 f (hfield ▸ hf))
  · exact ⟨hready f (hf.imp_right fun hf => (h.ready f hf).1),
      hready' f (hf.imp (fun he => hfield ▸ he) fun hf => (h.ready f hf).2)⟩

/-! ### Reading values and items -/

inductive SameSlot (m m' : Model) (c : ClassId) (f : String) : Option Datum → Option Datum → Prop
  | absent : SameSlot m m' c f none none
  | text (s : String) : SameSlot m m' c f (some (.text s)) (some (.text s))
  | value {q : PropertyId} {v v' : Datum} (mem : q ∈ (m.decl c).properties)
      (field : (m.prop q).field = f) (kind : gathers (m.prop q) = false)
      (reference : (m.prop q).reference = none) (h : SameValue m m' v v') :
      SameSlot m m' c f (some v) (some v')
  | wrapper {q : PropertyId} {w : ClassId} {fs fs' : Fields} (mem : q ∈ (m.decl c).properties)
      (field : (m.prop q).field = f) (reference : (m.prop q).reference = some w)
      (h : ∀ parent, (writer m' (.object w fs')).inline parent =
        (writer m (.object w fs)).inline parent) :
      SameSlot m m' c f (some (.object w fs)) (some (.object w fs'))
  | items {q : PropertyId} {kind kind' : ContainerKind} {xs xs' : List Datum}
      (mem : q ∈ (m.decl c).properties) (field : (m.prop q).field = f)
      (gathers : gathers (m.prop q) = true) (h : List.Forall₂ (SameValue m m') xs xs') :
      SameSlot m m' c f (some (.container kind xs)) (some (.container kind' xs'))

def SameFields (m m' : Model) (c : ClassId) (fs fs' : Fields) : Prop :=
  ∀ f, SameSlot m m' c f (Assoc.get? f fs) (Assoc.get? f fs')

theorem SameFields.put (h : SameFields m m' c fs fs')
    (hv : SameSlot m m' c f (some v) (some v')) :
    SameFields m m' c (Assoc.put f v fs) (Assoc.put f v' fs') := by
  intro g
  rw [Assoc.get?_put, Assoc.get?_put]
  split
  · next hg => exact hg ▸ hv
  · exact h g

def SameObject (m m' : Model) (c : ClassId) (v v' : Datum) : Prop :=
  ∃ fs fs', v = .object c fs ∧ v' = .object c fs' ∧ SameFields m m' c fs fs'

structure SameChild (m m' : Model) (k k' : Child) : Prop where
  element : k'.element = k.element
  read : ∀ d ∈ m.walk, (m.decl d).isWrapper = false →
    Agree (SameObject m m' d) (k.read d) (k'.read d)

/-- Two readings whose fields stand in a relation, with the same children left. -/
structure SameProgress (m m' : Model) (R : Fields → Fields → Prop) (s s' : Progress) : Prop where
  fields : R s.1 s'.1
  rest : List.Forall₂ (SameChild m m') s.2 s'.2

theorem SameSlot.none_or_some (h : SameSlot m m' c f o o') : o = none ∧ o' = none ∨
    ∃ v v', o = some v ∧ o' = some v' ∧ v.isNull = false ∧ v'.isNull = false := by
  cases h with
  | absent => exact Or.inl ⟨rfl, rfl⟩
  | text s => exact Or.inr ⟨_, _, rfl, rfl, rfl, rfl⟩
  | value _ _ _ _ h => exact Or.inr ⟨_, _, rfl, rfl, h.isNull⟩
  | wrapper _ _ _ h => exact Or.inr ⟨_, _, rfl, rfl, rfl, rfl⟩
  | items _ _ _ h => exact Or.inr ⟨_, _, rfl, rfl, rfl, rfl⟩

theorem SameSlot.isTruthy_eq (h : SameSlot m m' c f (some v) (some v')) :
    v'.isTruthy = v.isTruthy := by
  cases h with
  | text s => rfl
  | value _ _ _ _ h => exact h.isTruthy
  | wrapper _ _ _ h => rfl
  | items _ _ _ h => cases h <;> rfl

theorem SameSlot.items_agree (h : SameSlot m m' c f (some v) (some v')) :
    Agree (List.Forall₂ SameWriter) (writer m v).items (writer m' v').items := by
  cases h with
  | text s => exact (SameValue.text s).items
  | value _ _ _ _ h => exact h.items
  | wrapper _ _ _ h => exact .error _
  | items _ _ _ h =>
    rw [items_container, items_container]
    exact .ok (valueWriters_same h)

theorem SameSlot.parts_agree (h : SameSlot m m' c f (some v) (some v')) :
    Agree (List.Forall₂ (SameValue m m')) (partsOf v) (partsOf v') := by
  cases h with
  | text s => exact (SameValue.text s).partsOf
  | value _ _ _ _ h => exact h.partsOf
  | wrapper _ _ _ h => exact .error _
  | items _ _ _ h => exact .ok h

theorem SameSlot.textOf_eq (h : SameSlot m m' c f (some v) (some v')) : textOf v' = textOf v := by
  cases h with
  | text s => rfl
  | value _ _ _ _ h => exact h.textOf
  | wrapper _ _ _ h => rfl
  | items _ _ _ h => cases h <;> rfl

theorem SameSlot.textPart_eq (h : SameSlot m m' c f (some v) (some v')) :
    textPart v' = textPart v := by
  cases h with
  | text s => rfl
  | value _ _ _ _ h => exact h.textPart
  | wrapper _ _ _ h => rfl
  | items _ _ _ h => rfl

theorem SameFields.contains_eq (h : SameFields m m' c fs fs') (f : String) :
    Assoc.contains f fs' = Assoc.contains f fs := by
  unfold Assoc.contains
  rcases (h f).none_or_some with ⟨ho, ho'⟩ | ⟨v, v', ho, ho', -⟩
  · rw [ho, ho']
  · rw [ho, ho']
    rfl

theorem SameFields.itemsOf (h : SameFields m m' c fs fs') (f : String) :
    Agree (List.Forall₂ SameWriter) (Binding.itemsOf (fieldWriters m fs) f)
      (Binding.itemsOf (fieldWriters m' fs') f) := by
  have hf := h f
  unfold Binding.itemsOf
  rw [get?_fieldWriters, get?_fieldWriters]
  rcases hf.none_or_some with ⟨ho, ho'⟩ | ⟨v, v', ho, ho', -⟩ <;> rw [ho, ho'] at hf ⊢
  · exact .ok .nil
  · simp only [Option.map_some, writer_datum, hf.isTruthy_eq]
    split
    · exact hf.items_agree
    · exact .ok .nil

theorem SameFields.runsOf (h : SameFields m m' c fs fs') :
    Agree (List.Forall₂ (SameValue m m')) (Binding.runsOf (fieldWriters m fs))
      (Binding.runsOf (fieldWriters m' fs')) := by
  have hf := h textRunsName
  unfold Binding.runsOf
  rw [get?_fieldWriters, get?_fieldWriters]
  rcases hf.none_or_some with ⟨ho, ho'⟩ | ⟨v, v', ho, ho', -⟩ <;> rw [ho, ho'] at hf ⊢
  · exact .ok .nil
  · simp only [Option.map_some, writer_datum, hf.isTruthy_eq]
    split
    · exact hf.parts_agree
    · exact .ok .nil

/-! ### Writing objects -/

section Object

variable (hn : (m.fields c).Nodup) (hx : ∀ q ∈ (m.decl c).properties, m'.prop q = m.prop q)
  (h : SameFields m m' c fs fs')
include hn hx h

theorem writeProperty_same (hq : q ∈ (m.decl c).properties) (parent : Xml.Element) :
    writeProperty m' (fieldWriters m' fs') parent q =
      writeProperty m (fieldWriters m fs) parent q := by
  have own {p : PropertyId} (hp : p ∈ (m.decl c).properties)
      (hf : (m.prop p).field = (m.prop q).field) : p = q := List.inj_on_of_nodup_map hn hp hq hf
  have hslot := h (m.prop q).field
  have hxq := hx q hq
  rcases hslot.none_or_some with ⟨ho, ho'⟩ | ⟨v, v', ho, ho', hnull, hnull'⟩
  · rw [writeProperty_of_absent ho, writeProperty_of_absent (by rwa [hxq])]
  · rw [writeProperty_of_present ho hnull, writeProperty_of_present (by rwa [hxq]) hnull', hxq]
    rw [ho, ho'] at hslot
    split
    · next ha =>
      suffices attributeText m' v' = attributeText m v by rw [this]
      cases hslot with
      | text s => rfl
      | value _ _ _ _ h => exact h.attributeText
      | wrapper _ _ _ h => rfl
      | items hp hf hg h => simp [own hp hf, gathers, ha] at hg
    · split
      · next hr =>
        cases hslot with
        | text s => rfl
        | value hp hf _ href h => simp [← own hp hf, href] at hr
        | wrapper _ _ _ h => exact h parent
        | items hp hf hg h =>
          rw [own hp hf, gathers] at hg
          simp [Option.isNone_iff_eq_none] at hg
          simp [hg.1.2] at hr
      · next hr =>
        split
        · exact writeMixed_same (h.itemsOf _) h.runsOf rfl parent
        · next hk =>
          split
          · have hitems := hslot.items_agree
            generalize (writer m v).items = ws, (writer m' v').items = ws' at hitems
            cases hitems with
            | error e => rfl
            | ok hw => exact writeItems_same hw rfl parent
          · next hrep =>
            suffices (writer m' v').value (m.prop q) = (writer m v).value (m.prop q) by rw [this]
            cases hslot with
            | text s => exact sameWriter_plain s _ _ rfl
            | value _ _ _ _ h => exact h.writer _ _ rfl
            | wrapper hp hf href h => simp [← own hp hf, href] at hr
            | items hp hf hg h => simp [own hp hf, gathers, hk, hrep] at hg

theorem writeObject_same (hm : m.SameButHeld m') (tag : String) :
    writeObject m' c (fieldWriters m' fs') tag = writeObject m c (fieldWriters m fs) tag := by
  have hproperties (l : List PropertyId) (hl : ∀ q ∈ l, q ∈ (m.decl c).properties)
      (parent : Xml.Element) : l.foldlM (writeProperty m' (fieldWriters m' fs')) parent =
        l.foldlM (writeProperty m (fieldWriters m fs)) parent := by
    induction l generalizing parent with
    | nil => rfl
    | cons q l ih =>
      rw [List.foldlM_cons, List.foldlM_cons,
        writeProperty_same hn hx h (hl q List.mem_cons_self)]
      exact bind_congr fun z => ih (fun p hp => hl p (List.mem_cons_of_mem q hp)) z
  have htext := h textField
  unfold writeObject
  simp only [hm.decl, get?_fieldWriters, hproperties _ fun _ => id]
  rcases htext.none_or_some with ⟨ho, ho'⟩ | ⟨v, v', ho, ho', -⟩ <;> rw [ho, ho'] at htext ⊢
  · rfl
  · simp only [Option.map_some, writer_datum, htext.textOf_eq]

theorem sameValue_object (hm : m.SameButHeld m') :
    SameValue m m' (.object c fs) (.object c fs') := by
  refine .object c fun x x' hname => ?_
  have htag : tagOf (fieldWriters m' fs') x' = tagOf (fieldWriters m fs) x := by
    have hf := h elementField
    unfold tagOf
    rw [get?_fieldWriters, get?_fieldWriters]
    rcases hf.none_or_some with ⟨ho, ho'⟩ | ⟨v, v', ho, ho', -⟩ <;> rw [ho, ho'] at hf ⊢
    · simp only [Option.map_none, hname]
    · simp only [Option.map_some, writer_datum, hf.textPart_eq]
  change (tagOf _ x').bind _ = (tagOf _ x).bind _
  rw [htag]
  exact bind_congr fun tag => writeObject_same hn hx h hm tag

end Object

/-! ### Reading values and items -/

theorem keepsRuns (ha : GathersApart m) (hl : m.Linked) (c : ClassId) : KeepsRuns m c := by
  by_cases hc : c ∈ m.walk
  · exact ha.runs c hc
  · rintro ⟨p, hp, -⟩
    exact absurd ((Model.mem_walk hl).mpr (Model.class_lt_of_mem hp)) hc

section Reading

variable (hm : m.SameButHeld m') (hl : m.Linked) (ha : GathersApart m)
include hm hl ha

theorem readValue_same (hx : x'.unheld = x.unheld) (ht : Unwrapping m x)
    (hk : SameChild m m' k k') :
    Agree (SameValue m m') (readValue m x k) (readValue m' x' k') := by
  have hkind : x'.kind = x.kind := (congrArg Property.kind hx :)
  have htype : typeFor x' k.element.tag = typeFor x k.element.tag :=
    (congrArg (fun x => typeFor x k.element.tag) hx :)
  unfold readValue
  rw [hkind, hk.element, htype, hm.classOfType?]
  split
  · exact .ok (.element _)
  · cases hd : m.classOfType? (typeFor x k.element.tag) with
    | none =>
      dsimp only
      split
      · exact .ok (.element _)
      · exact .ok (.text _)
    | some d =>
      have hwalk := mem_walk_of_classOfType? hd
      have hw := ht _ d hd
      refine (hk.read d hwalk hw).bind ?_
      rintro _ _ ⟨fs, fs', rfl, rfl, hf⟩
      have object {fs fs' : Fields} (hf : SameFields m m' d fs fs') :
          SameValue m m' (.object d fs) (.object d fs') :=
        sameValue_object (ha.nodup d hwalk hw) (fun q => hm.prop_eq hl hw) hf hm
      dsimp only
      rw [hf.contains_eq]
      split
      · exact .ok (object hf)
      · exact .ok (object (hf.put (.text _)))

theorem readItems_same {I : Fields → Fields → Prop} (hx : x'.unheld = x.unheld)
    (ht : Unwrapping m x) (happend : ∀ gs gs' v v', I gs gs' → SameValue m m' v v' →
      Agree I (Instance.append m c gs v (some x.field)) (Instance.append m' c gs' v' (some x.field)))
    (hk : List.Forall₂ (SameChild m m') ks ks') (hi : I fs fs') :
    Agree (SameProgress m m' I) (readItems m c x fs ks) (readItems m' c x' fs' ks') := by
  have hfield : x'.field = x.field := (congrArg Property.field hx :)
  induction hk generalizing fs fs' with
  | nil => exact .ok ⟨hi, .nil⟩
  | @cons k k' ks ks' hkk hk ih =>
    have haccepts : accepts x' k.element.tag = accepts x k.element.tag :=
      (congrArg (fun x => accepts x k.element.tag) hx :)
    rw [readItems, readItems, hkk.element, haccepts, hfield]
    split
    · refine (readValue_same hm hl ha hx ht hkk).bind fun v v' hv => ?_
      exact (happend _ _ v v' hi hv).bind fun gs gs' hg => ih hg
    · exact .ok ⟨hi, .cons hkk hk⟩

theorem readMixedItems_same {I : Fields → Fields → Prop} {keeps : Bool}
    (hx : x'.unheld = x.unheld) (ht : Unwrapping m x)
    (happend : ∀ f gs gs' v v', f = x.field ∨ keeps = true ∧ f = textRunsName → I gs gs' →
      SameValue m m' v v' →
        Agree I (Instance.append m c gs v (some f)) (Instance.append m' c gs' v' (some f)))
    (hk : List.Forall₂ (SameChild m m') ks ks') (hi : I fs fs') :
    Agree I (readMixedItems m c x keeps fs ks) (readMixedItems m' c x' keeps fs' ks') := by
  have hfield : x'.field = x.field := (congrArg Property.field hx :)
  induction hk generalizing fs fs' with
  | nil => exact .ok hi
  | @cons k k' ks ks' hkk hk ih =>
    rw [readMixedItems, readMixedItems, hkk.element, hfield]
    refine (readValue_same hm hl ha hx ht hkk).bind fun v v' hv => ?_
    refine (happend _ _ _ v v' (Or.inl rfl) hi hv).bind fun gs gs' hg => ?_
    refine Agree.bind ?_ fun us us' hu => ih hu
    unfold appendText
    split
    · next hkeeps => exact happend _ _ _ _ _ (Or.inr ⟨hkeeps, rfl⟩) hg (.text _)
    · exact .ok hg

theorem readMixed_same {I J K : Fields → Fields → Prop} (hx : x'.unheld = x.unheld)
    (ht : Unwrapping m x)
    (hensure : ∀ gs gs', I gs gs' →
      Agree J (Instance.ensureContainer m c gs x) (Instance.ensureContainer m' c gs' x'))
    (hruns : ∀ q ∈ m.propertyNamed? c textRunsName, ∀ gs gs', J gs gs' →
      Agree K (Instance.ensureContainer m c gs (m.prop q))
        (Instance.ensureContainer m' c gs' (m'.prop q)))
    (hnone : m.propertyNamed? c textRunsName = none → ∀ gs gs', J gs gs' → K gs gs')
    (happend : ∀ f gs gs' v v',
      f = x.field ∨ (m.propertyNamed? c textRunsName).isSome ∧ f = textRunsName → K gs gs' →
        SameValue m m' v v' →
          Agree K (Instance.append m c gs v (some f)) (Instance.append m' c gs' v' (some f)))
    (hk : List.Forall₂ (SameChild m m') ks ks') (hi : I fs fs') :
    Agree (SameProgress m m' K) (readMixed m c x text fs ks)
      (readMixed m' c x' text fs' ks') := by
  unfold readMixed
  rw [hm.propertyNamed?]
  generalize m.propertyNamed? c textRunsName = runs at hruns hnone happend ⊢
  have hrest (us us' : Fields) (hu : K us us') :
      Agree (SameProgress m m' K)
        (do
          let fs ← appendText m c runs.isSome us text
          return (← readMixedItems m c x runs.isSome fs ks, []))
        (do
          let fs ← appendText m' c runs.isSome us' text
          return (← readMixedItems m' c x' runs.isSome fs ks', [])) := by
    refine Agree.bind (R := K) ?_ fun vs vs' hv => ?_
    · unfold appendText
      split
      · next hkeeps => exact happend _ _ _ _ _ (Or.inr ⟨hkeeps, rfl⟩) hu (.text _)
      · exact .ok hu
    · refine (readMixedItems_same hm hl ha hx ht happend hk hv).bind fun _ _ h => ?_
      exact .ok ⟨h, .nil⟩
  refine (hensure _ _ hi).bind fun gs gs' hg => ?_
  cases runs with
  | none => exact hrest _ _ (hnone rfl _ _ hg)
  | some q => exact (hruns q rfl _ _ hg).bind hrest

/-- Runs of text may share the container of the items. -/
theorem readMixedWrapped_same {ready : String → Prop} (hp : p ∈ (m.decl w).properties)
    (hkind : (m.prop p).kind = .mixed) (ht : Unwrapping m (m.prop p))
    (hg : Gathering m m' ready fs fs') (hk : List.Forall₂ (SameChild m m') ks ks') :
    Agree (SameProgress m m' fun gs gs' => ∀ f, SameItems m m' f gs gs')
      (readMixed m w (m.prop p) text fs ks) (readMixed m' w (m'.prop p) text fs' ks') := by
  have hruns {q} (hq : q ∈ m.propertyNamed? w textRunsName) : (m.prop q).field = textRunsName :=
    (keepsRuns ha hl w ⟨p, hp, hkind⟩ q hq).1
  refine (readMixed_same hm hl ha (hm.unheld p) ht (I := Gathering m m' ready)
    (K := Gathering m m' fun f => f = (m.prop p).field ∨
      (m.propertyNamed? w textRunsName).isSome ∧ f = textRunsName)
    (fun _ _ hg => hg.ensureContainer hm hp) (fun q hq gs gs' hg => ?_)
    (fun hnone gs gs' hg => ?_) (fun f gs gs' v v' hf hg hv => hg.append hm hf hv)
    hk hg).mono fun _ _ h => ⟨h.fields.items, h.rest⟩
  · have hmem := (mem_of_propertyNamed? hq).1
    refine (hg.ensureContainer hm hmem).mono fun _ _ hg => hg.mono fun f hf => ?_
    rw [hruns hq]
    exact hf.elim (fun hf => Or.inr (Or.inl hf)) fun hf => Or.inl hf.2
  · refine hg.mono fun f hf => Or.inl (hf.resolve_right fun hf => ?_)
    simp [hnone] at hf

theorem readWrapped_same {ready : String → Prop} {l : List PropertyId}
    (hmem : ∀ p ∈ l, p ∈ (m.decl w).properties)
    (ht : ∀ p ∈ l, (m.prop p).synthetic = false → Unwrapping m (m.prop p))
    (h : SameProgress m m' (Gathering m m' ready) s s') :
    Agree (SameProgress m m' fun gs gs' => ∀ f, SameItems m m' f gs gs')
      (readWrapped m w text l s) (readWrapped m' w text l s') := by
  induction l generalizing ready s s' with
  | nil => exact .ok ⟨h.fields.items, h.rest⟩
  | cons p l ih =>
    obtain ⟨fs, ks⟩ := s
    obtain ⟨fs', ks'⟩ := s'
    obtain ⟨hg, hk⟩ := h
    have hp := hmem p List.mem_cons_self
    have ih {ready : String → Prop} {s s' : Progress}
        (h : SameProgress m m' (Gathering m m' ready) s s') :=
      ih (fun q hq => hmem q (List.mem_cons_of_mem p hq))
        (fun q hq => ht q (List.mem_cons_of_mem p hq)) h
    rw [readWrapped, readWrapped, hm.congr p Property.synthetic fun _ => rfl,
      hm.congr p Property.kind fun _ => rfl]
    split
    · exact ih ⟨hg, hk⟩
    · next hs =>
      have ht := ht p List.mem_cons_self (by simpa using hs)
      split
      · next hkind => exact readMixedWrapped_same hm hl ha hp hkind ht hg hk
      · refine (hg.ensureContainer hm hp).bind fun gs gs' hg => ?_
        refine (readItems_same hm hl ha (hm.unheld p) ht (fun gs gs' v v' hg hv =>
          hg.append hm (Or.inl rfl) hv) hk hg).bind fun _ _ h => ih h

/-! ### Reading objects -/

theorem readReference_same (hq : q ∈ (m.decl c).properties)
    (hr : (m.prop q).reference = some w)
    (ht : ∀ p ∈ (m.decl w).properties, (m.prop p).synthetic = false → Unwrapping m (m.prop p))
    (h : SameFields m m' c fs fs') (hk : List.Forall₂ (SameChild m m') ks ks') :
    Agree (SameProgress m m' fun gs gs' =>
        SameFields m m' c (Assoc.put (m.prop q).field (.object w gs) fs)
          (Assoc.put (m.prop q).field (.object w gs') fs'))
      (readWrapped m w text (m.decl w).properties (Instance.fresh m w, ks))
      (readWrapped m' w text (m.decl w).properties (Instance.fresh m' w, ks')) := by
  have hfresh : Gathering m m' (fun _ => False) (Instance.fresh m w) (Instance.fresh m' w) :=
    ⟨fun f => ⟨[], [], Instance.has_fresh m w f, Instance.has_fresh m' w f, .nil⟩,
      fun _ hf => hf.elim⟩
  refine (readWrapped_same hm hl ha (fun _ => id) ht ⟨hfresh, hk⟩).mono fun t t' hg => ?_
  exact ⟨h.put (.wrapper hq rfl hr (inline_same hm hg.fields)), hg.rest⟩

section Class

variable (hc : c ∈ m.walk) (hw : (m.decl c).isWrapper = false)
include hc hw

theorem SameFields.append (h : SameFields m m' c fs fs') (hq : q ∈ (m.decl c).properties)
    (hg : gathers (m.prop q) = true) (hv : SameValue m m' v v') :
    Agree (SameFields m m' c) (Instance.append m c fs v (some (m.prop q).field))
      (Instance.append m' c fs' v' (some (m.prop q).field)) := by
  have own {p : PropertyId} (hp : p ∈ (m.decl c).properties)
      (hf : (m.prop p).field = (m.prop q).field) : p = q :=
    List.inj_on_of_nodup_map (ha.nodup c hc hw) hp hq hf
  have hfield := wrappedField_eq hm hl hw (some (m.prop q).field)
  have items {kind kind' : ContainerKind} {xs xs' : List Datum}
      (hxx : List.Forall₂ (SameValue m m') xs xs') : SameSlot m m' c (m.prop q).field
        (some (.container kind xs)) (some (.container kind' xs')) := .items hq rfl hg hxx
  have hslot := h (m.prop q).field
  generalize ho : Assoc.get? (m.prop q).field fs = o, ho' : Assoc.get? (m.prop q).field fs' = o'
    at hslot
  cases hslot with
  | absent =>
    rw [append_of_none ho, append_of_none ho', hfield, hm.qualifiedName]
    refine Agree.bind (.of_eq rfl) ?_
    rintro _ x rfl
    obtain ⟨kind, hk⟩ := Instance.exists_newContainer x
    rw [hk]
    split
    · exact .error _
    · exact .ok ((h.put (items .nil)).put (items (.cons hv .nil)))
  | text s =>
    rw [append_of_text ho, append_of_text ho', hfield]
    refine Agree.bind (.of_eq rfl) fun _ _ _ => .error _
  | value hp hf hkind _ _ =>
    rw [own hp hf, hg] at hkind
    cases hkind
  | wrapper hp hf href _ =>
    rw [own hp hf, (gathers_eq_true.mp hg).2.1] at href
    cases href
  | items hp hf _ hxx =>
    rw [append_of_container ho, append_of_container ho', hfield]
    exact Agree.map (.of_eq rfl) fun _ _ _ => h.put (items (List.rel_append hxx (.cons hv .nil)))

omit ha hc in
theorem SameFields.ensureContainer (h : SameFields m m' c fs fs')
    (hq : q ∈ (m.decl c).properties) (hg : gathers (m.prop q) = true) :
    Agree (SameFields m m' c) (Instance.ensureContainer m c fs (m.prop q))
      (Instance.ensureContainer m' c fs' (m'.prop q)) := by
  rw [hm.prop_eq hl hw hq]
  unfold Instance.ensureContainer Instance.setItems
  rw [h.contains_eq, wrappedField_eq hm hl hw]
  split
  · exact .ok h
  · cases hx : Instance.wrappedField m c (some (m.prop q).field) with
    | error e => exact .error e
    | ok x =>
      obtain ⟨kind, hk⟩ := Instance.exists_newContainer (m.prop q)
      refine .ok (h.put ?_)
      rw [Instance.field_of_wrappedField hx, hk]
      exact .items hq rfl hg .nil

theorem readMixedContent_same (hq : q ∈ (m.decl c).properties) (hg : gathers (m.prop q) = true)
    (hkind : (m.prop q).kind = .mixed) (ht : Unwrapping m (m.prop q))
    (h : SameFields m m' c fs fs') (hk : List.Forall₂ (SameChild m m') ks ks') :
    Agree (SameProgress m m' (SameFields m m' c)) (readMixed m c (m.prop q) text fs ks)
      (readMixed m' c (m.prop q) text fs' ks') := by
  have hruns {p} (hp : p ∈ m.propertyNamed? c textRunsName) : p ∈ (m.decl c).properties ∧
      (m.prop p).field = textRunsName ∧ gathers (m.prop p) = true :=
    ⟨(mem_of_propertyNamed? hp).1, ha.runs c hc ⟨q, hq, hkind⟩ p hp⟩
  refine readMixed_same hm hl ha rfl ht (I := SameFields m m' c) (J := SameFields m m' c)
    (fun gs gs' h => ?_) (fun p hp gs gs' h => ?_) (fun _ _ _ h => h)
    (fun f gs gs' v v' hf h hv => ?_) hk h
  · exact hm.prop_eq hl hw hq ▸ h.ensureContainer hm hl hw hq hg
  · exact h.ensureContainer hm hl hw (hruns hp).1 (hruns hp).2.2
  · rcases hf with rfl | ⟨hsome, rfl⟩
    · exact h.append hm hl ha hc hw hq hg hv
    · obtain ⟨p, hp⟩ := Option.isSome_iff_exists.mp hsome
      obtain ⟨hmem, hfield, hg⟩ := hruns hp
      exact hfield ▸ h.append hm hl ha hc hw hmem hg hv

/-- One property of an object is read alike. -/
theorem readProperty_same (ht : m.ReadsNoWrapper) (hq : q ∈ (m.decl c).properties)
    (h : SameProgress m m' (SameFields m m' c) s s') :
    Agree (SameProgress m m' (SameFields m m' c)) (readProperty m c e s q)
      (readProperty m' c e s' q) := by
  have unwrapping {p : PropertyId} (hp : p ∈ itemProperties m c) : Unwrapping m (m.prop p) :=
    fun tag d hd => ht c hc p hp _ (Property.typeFor_mem_typeNames _ tag) d hd
  obtain ⟨fs, ks⟩ := s
  obtain ⟨fs', ks'⟩ := s'
  obtain ⟨h, hk⟩ := h
  unfold readProperty
  simp only [hm.prop_eq hl hw hq, hm.decl]
  split
  · cases Assoc.get? (m.prop q).name e.attributes with
    | none => exact .ok ⟨h, hk⟩
    | some v => exact .ok ⟨h.put (.text v), hk⟩
  · next hattr =>
    have hattr : (m.prop q).isAttribute = false := by simpa using hattr
    cases hr : (m.prop q).reference with
    | some w =>
      have ht (p) (hp : p ∈ (m.decl w).properties) (hs : (m.prop p).synthetic = false) :=
        unwrapping (mem_itemProperties_wrapped hq hattr hr hp hs)
      exact (readReference_same hm hl ha hq hr ht h hk).bind fun _ _ h => .ok ⟨h.fields, h.rest⟩
    | none =>
      have ht := unwrapping (mem_itemProperties_own hq hattr hr)
      dsimp only
      split
      · next hkind =>
        have hg : gathers (m.prop q) = true := gathers_eq_true.mpr ⟨hattr, hr, Or.inl hkind⟩
        exact readMixedContent_same hm hl ha hc hw hq hg hkind ht h hk
      · next hkind =>
        split
        · next hrep =>
          have hg : gathers (m.prop q) = true := gathers_eq_true.mpr ⟨hattr, hr, Or.inr hrep⟩
          exact readItems_same hm hl ha rfl ht
            (fun _ _ _ _ h hv => h.append hm hl ha hc hw hq hg hv) hk h
        · next hrep =>
          have hg : gathers (m.prop q) = false := by simp [gathers, hkind, hrep]
          cases hk with
          | nil => exact .ok ⟨h, .nil⟩
          | cons hkk hk =>
            dsimp only
            rw [hkk.element]
            split
            · refine (readValue_same hm hl ha rfl ht hkk).bind fun v v' hv => ?_
              exact .ok ⟨h.put (.value hq rfl hg hr hv), hk⟩
            · exact .ok ⟨h, .cons hkk hk⟩

theorem readObject_same (ht : m.ReadsNoWrapper) (hk : List.Forall₂ (SameChild m m') ks ks') :
    Agree (SameObject m m' c) (readObject m c e ks) (readObject m' c e ks') := by
  have hfold (l : List PropertyId) (hmem : ∀ q ∈ l, q ∈ (m.decl c).properties) {s s' : Progress}
      (h : SameProgress m m' (SameFields m m' c) s s') :
      Agree (SameProgress m m' (SameFields m m' c))
        (l.foldlM (readProperty m c e) s) (l.foldlM (readProperty m' c e) s') := by
    induction l generalizing s s' with
    | nil => exact .ok h
    | cons q l ih =>
      rw [List.foldlM_cons, List.foldlM_cons]
      refine (readProperty_same hm hl ha hc hw ht (hmem q List.mem_cons_self) h).bind ?_
      exact fun t t' h => ih (fun p hp => hmem p (List.mem_cons_of_mem q hp)) h
  have hholds : holdsText m' c = holdsText m c := by
    unfold holdsText
    rw [hm.decl, Bool.eq_iff_iff, List.all_eq_true, List.all_eq_true]
    exact forall₂_congr fun q hq => by rw [hm.prop_eq hl hw hq]
  have hempty : ks'.isEmpty = ks.isEmpty := by cases hk <;> rfl
  have hstart : SameFields m m' c (Instance.fresh m c, ks).1 (Instance.fresh m' c, ks').1 := by
    rw [Instance.fresh_of_not_wrapper hw, Instance.fresh_of_not_wrapper ((hm.decl c).symm ▸ hw)]
    exact fun f => .absent
  unfold readObject
  rw [hholds, hempty, hm.decl, hm.qualifiedName]
  refine (hfold _ (fun _ => id) ⟨hstart, hk⟩).bind ?_
  rintro ⟨fs, rest⟩ ⟨fs', rest'⟩ ⟨h, hrest⟩
  cases hrest with
  | cons hkk _ =>
    dsimp only
    rw [hkk.element, hw]
    exact .error _
  | nil =>
    dsimp only
    split
    · exact .ok ⟨_, _, rfl, rfl, h.put (.text _)⟩
    · exact .ok ⟨fs, fs', rfl, rfl, h⟩

end Class

end Reading

mutual

theorem reader_same (hm : m.SameButHeld m') (hl : m.Linked) (ha : GathersApart m)
    (ht : m.ReadsNoWrapper) : ∀ (e : Xml.Element) {c : ClassId}, c ∈ m.walk →
      (m.decl c).isWrapper = false → Agree (SameObject m m' c) (reader m e c) (reader m' e c)
  | ⟨_, _, _, _, children⟩, _, hc, hw => by
    rw [reader, reader]
    exact readObject_same hm hl ha hc hw ht (childReaders_same hm hl ha ht children)

theorem childReaders_same (hm : m.SameButHeld m') (hl : m.Linked) (ha : GathersApart m)
    (ht : m.ReadsNoWrapper) : ∀ es : List Xml.Element,
      List.Forall₂ (SameChild m m') (childReaders m es) (childReaders m' es)
  | [] => .nil
  | e :: es =>
    .cons ⟨rfl, fun _ hd hw => reader_same hm hl ha ht e hd hw⟩ (childReaders_same hm hl ha ht es)

end

/-- Documents do not tell how items are held. -/
theorem unmarshalElement_same {asked : Option String} (hm : m.SameButHeld m') (hl : m.Linked)
    (ha : GathersApart m) (ht : m.ReadsNoWrapper)
    (hroot : ∀ c, rootClass m asked e.tag = .ok c → (m.decl c).isWrapper = false) :
    Agree (fun v v' => marshalElement m' v' = marshalElement m v) (unmarshalElement m asked e)
      (unmarshalElement m' asked e) := by
  have hbound (c : ClassId) : boundElement m' c = boundElement m c := by
    simp only [boundElement, hm.decl]
  have hsame : rootClass m' asked e.tag = rootClass m asked e.tag := by
    simp only [rootClass, hm.findClass?, hm.walk, hm.decl, hbound]
  unfold unmarshalElement
  rw [hsame]
  cases hc : rootClass m asked e.tag with
  | error x => exact .error x
  | ok c =>
    have hw := hroot c hc
    have hwalk := mem_walk_of_rootClass hc
    refine (reader_same hm hl ha ht e hwalk hw).mono ?_
    rintro _ _ ⟨fs, fs', rfl, rfl, hf⟩
    unfold marshalElement
    dsimp only
    rw [hbound]
    exact writeObject_same (ha.nodup c hwalk hw) (fun q => hm.prop_eq hl hw) hf hm _

end Binding
end Enfold
