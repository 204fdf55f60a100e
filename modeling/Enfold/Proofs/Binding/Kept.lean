import Enfold.Proofs.Binding.Conforming
import Enfold.Proofs.Binding.Items

/-! # What comes back of a document

An element that is read as an object comes back with the attributes that its class declares and with
all its children, each in its place. What is left of a child depends on the property that takes it:
an element of any kind is kept whole, an object comes back by the same rules, and of an element that
is read for its text there is nothing but the text, under the name of the property.
-/

namespace Enfold.Binding

variable {m : Model} {c d w : ClassId} {x : Property} {p q : PropertyId} {fs gs hs : Fields}
  {xs vs : List Datum} {e k y parent : Xml.Element} {es ys : List Xml.Element} {s t : Progress}
  {ps qs l : List PropertyId} {ks rest : List Child}

/-- The properties that take children: those of a class and of its wrappers. -/
def itemProperties (m : Model) (c : ClassId) : List PropertyId :=
  (m.decl c).properties.flatMap fun q =>
    if (m.prop q).isAttribute then [] else
      match (m.prop q).reference with
      | some w => (m.decl w).properties.filter fun p => !(m.prop p).synthetic
      | none => [q]

theorem mem_itemProperties_own (hq : q ∈ (m.decl c).properties)
    (ha : (m.prop q).isAttribute = false) (hr : (m.prop q).reference = none) :
    q ∈ itemProperties m c :=
  List.mem_flatMap.mpr ⟨q, hq, by simp [ha, hr]⟩

theorem mem_itemProperties_wrapped (hq : q ∈ (m.decl c).properties)
    (ha : (m.prop q).isAttribute = false) (hr : (m.prop q).reference = some w)
    (hp : p ∈ (m.decl w).properties) (hs : (m.prop p).synthetic = false) :
    p ∈ itemProperties m c :=
  List.mem_flatMap.mpr ⟨q, hq, by simp [ha, hr, hp, hs]⟩

mutual

/-- What comes back of an element that is read as an object of a class. -/
inductive Kept (m : Model) : ClassId → Xml.Element → Xml.Element → Prop
  | intro {c : ClassId} {e y : Xml.Element}
      (attributes : ∀ name, Assoc.get? name y.attributes =
        if declares m (m.decl c).properties name then Assoc.get? name e.attributes else none)
      (children : KeptAll m c e.children y.children) : Kept m c e y

inductive KeptAll (m : Model) : ClassId → List Xml.Element → List Xml.Element → Prop
  | nil {c : ClassId} : KeptAll m c [] []
  | cons {c : ClassId} {p : PropertyId} {k y : Xml.Element} {es ys : List Xml.Element}
      (mem : p ∈ itemProperties m c) (takes : takesItem (m.prop p) k.tag = true)
      (kept : KeptAs m (m.prop p) k y) (rest : KeptAll m c es ys) :
      KeptAll m c (k :: es) (y :: ys)

/-- What comes back of an element as the value of a property. -/
inductive KeptAs (m : Model) : Property → Xml.Element → Xml.Element → Prop
  | whole {x : Property} {k y : Xml.Element}
      (kind : x.kind = .any ∨ x.kind = .mixed ∧ m.classOfType? (typeFor x k.tag) = none)
      (tag : y.tag = k.tag) (attributes : y.attributes = k.attributes) (text : y.text = k.text)
      (children : y.children = k.children) : KeptAs m x k y
  | text {x : Property} {k y : Xml.Element} (kind : x.kind ≠ .any ∧ x.kind ≠ .mixed)
      (type : m.classOfType? (typeFor x k.tag) = none) (tag : y.tag = x.name)
      (attributes : y.attributes = []) (text : y.text = k.text) (children : y.children = []) :
      KeptAs m x k y
  | object {x : Property} {k y : Xml.Element} {d : ClassId} (kind : x.kind ≠ .any)
      (type : m.classOfType? (typeFor x k.tag) = some d) (tag : y.tag = k.tag)
      (kept : Kept m d k y) : KeptAs m x k y

end

def KeptChild (m : Model) (c : ClassId) (k y : Xml.Element) : Prop :=
  ∃ p ∈ itemProperties m c, takesItem (m.prop p) k.tag = true ∧ KeptAs m (m.prop p) k y

theorem keptAll_of_forall₂ (h : List.Forall₂ (KeptChild m c) es ys) : KeptAll m c es ys := by
  induction h with
  | nil => exact .nil
  | cons hk _ ih =>
    obtain ⟨p, hp, ht, hk⟩ := hk
    exact .cons hp ht hk ih

theorem KeptAs.withTail (h : KeptAs m x k y) (tail : String) : KeptAs m x k { y with tail } := by
  cases h with
  | whole kind tag attributes text children => exact .whole kind tag attributes text children
  | text kind type tag attributes text children => exact .text kind type tag attributes text children
  | object kind type tag kept =>
    obtain ⟨attributes, children⟩ := kept
    exact .object kind type tag ⟨attributes, children⟩

/-- The types of the properties that take children mean no wrappers. -/
def Unwrapping (m : Model) (x : Property) : Prop :=
  ∀ tag d, m.classOfType? (typeFor x tag) = some d → (m.decl d).isWrapper = false

/-! ### Values -/

def ReadsKept (m : Model) (c : ClassId) (e : Xml.Element) (r : Except BindingError Datum) : Prop :=
  ∀ v, r = .ok v → ∃ fs, v = .object c fs ∧ Assoc.get? elementField fs = none ∧
    ∀ gs tag, SameBeside elementField fs gs →
      ∃ y, writeObject m c (fieldWriters m gs) tag = .ok y ∧ y.tag = tag ∧ Kept m c e y

def ChildKept (m : Model) (k : Child) : Prop :=
  ∀ d ∈ m.walk, (m.decl d).isWrapper = false → ReadsKept m d k.element (k.read d)

structure WritesKept (m : Model) (x : Property) (v : Datum) (k : Xml.Element) : Prop where
  isNull : v.isNull = false
  value : ∃ y, (writer m v).value x = .ok y ∧ KeptAs m x k y

theorem readValue_kept {k : Child} {v : Datum} (ht : Unwrapping m x) (hk : ChildKept m k)
    (h : readValue m x k = .ok v) : WritesKept m x v k.element := by
  unfold readValue at h
  split at h
  · next hany =>
    cases h
    exact ⟨rfl, _, rfl, .whole (Or.inl hany) rfl rfl rfl rfl⟩
  · next hany =>
    split at h
    · next htype =>
      cases h
      split
      · next hmixed => exact ⟨rfl, _, rfl, .whole (Or.inr ⟨hmixed, htype⟩) rfl rfl rfl rfl⟩
      · next hmixed => exact ⟨rfl, _, rfl, .text ⟨hany, hmixed⟩ htype rfl rfl rfl rfl⟩
    · next d htype =>
      obtain ⟨v', hread, h⟩ := exceptBind_eq_ok.mp h
      obtain ⟨fs, rfl, hnone, hwrite⟩ :=
        hk d (mem_walk_of_classOfType? htype) (ht _ d htype) v' hread
      simp only [Assoc.contains, hnone] at h
      cases h
      obtain ⟨y, hy, htag, hkept⟩ := hwrite _ k.element.tag
        (sameBeside_put elementField (.text k.element.tag) fs)
      refine ⟨rfl, y, ?_, .object hany htype htag hkept⟩
      change (tagOf _ x).bind _ = _
      rw [tagOf_put]
      exact hy

/-! ### Items -/

abbrev AllKept (m : Model) (x : Property) (vs : List Datum) (ks : List Child) : Prop :=
  List.Forall₂ (WritesKept m x) vs (ks.map Child.element)

theorem allKept (ht : Unwrapping m x) (hk : ∀ k ∈ ks, ChildKept m k) (h : ReadAs m x ks vs) :
    AllKept m x vs ks := by
  induction h with
  | nil => exact .nil
  | cons hv _ ih =>
    exact .cons (readValue_kept ht (hk _ List.mem_cons_self) hv)
      (ih fun k hks => hk k (List.mem_cons_of_mem _ hks))

theorem readItems_kept (ht : Unwrapping m x) (hk : ∀ k ∈ ks, ChildKept m k)
    (hs : Instance.Has x.field fs xs) (h : readItems m c x fs ks = .ok (gs, rest)) :
    ∃ taken vs, ks = taken ++ rest ∧ (∀ k ∈ taken, accepts x k.element.tag = true) ∧
      Instance.Has x.field gs (xs ++ vs) ∧ SameBeside x.field fs gs ∧ AllKept m x vs taken := by
  obtain ⟨taken, vs, rfl, hacc, -, hgs, hb, hvs⟩ := readItems_ok hs h
  exact ⟨taken, vs, rfl, hacc, hgs, hb,
    allKept ht (fun k hkt => hk k (List.mem_append_left _ hkt)) hvs⟩

/-- An element has got more children, and perhaps another text. -/
structure Grows (R : Xml.Element → Xml.Element → Prop) (es : List Xml.Element)
    (parent y : Xml.Element) : Prop where
  tag : y.tag = parent.tag
  attributes : y.attributes = parent.attributes
  children : ∃ ys, List.Forall₂ R es ys ∧ y.children = parent.children ++ ys

namespace Grows

variable {R R' : Xml.Element → Xml.Element → Prop} {z : Xml.Element} {es' : List Xml.Element}

theorem refl (parent : Xml.Element) : Grows R [] parent parent :=
  ⟨rfl, rfl, [], .nil, (List.append_nil _).symm⟩

theorem trans (h : Grows R es parent y) (h' : Grows R es' y z) :
    Grows R (es ++ es') parent z := by
  obtain ⟨ys, hys, hy⟩ := h.children
  obtain ⟨zs, hzs, hz⟩ := h'.children
  exact ⟨h'.tag.trans h.tag, h'.attributes.trans h.attributes, ys ++ zs, List.rel_append hys hzs,
    by rw [hz, hy, List.append_assoc]⟩

theorem addChild (h : R k y) (parent : Xml.Element) : Grows R [k] parent (addChild parent y) :=
  ⟨rfl, rfl, [y], .cons h .nil, rfl⟩

theorem imp (h : Grows R es parent y) (hR : ∀ k ∈ es, ∀ y, R k y → R' k y) :
    Grows R' es parent y := by
  obtain ⟨ys, hys, hy⟩ := h.children
  refine ⟨h.tag, h.attributes, ys, ?_, hy⟩
  refine List.forall₂_iff_zip.mpr ⟨hys.length_eq, fun {a b} hab => ?_⟩
  exact hR a (List.of_mem_zip hab).1 b (List.forall₂_zip hys hab)

end Grows

theorem writeItems_kept (h : List.Forall₂ (WritesKept m x) vs es) (parent : Xml.Element) :
    ∃ y, writeItems x parent (valueWriters m vs) = .ok y ∧ Grows (KeptAs m x) es parent y := by
  obtain ⟨zs, hzs, hkept⟩ := exists_writtenAs (h.imp fun _ _ hv => hv.value)
  exact ⟨_, writeItems_eq_ok.mpr ⟨zs, hzs, rfl⟩, rfl, rfl, zs, hkept, rfl⟩

/-! ### Mixed content -/

def HasRuns (fs : Fields) : Prop := ∃ runs, HoldsRuns fs runs

theorem HasRuns.congr (h : HasRuns fs)
    (hg : Assoc.get? textRunsName gs = Assoc.get? textRunsName fs) : HasRuns gs := by
  obtain ⟨runs, hr⟩ := h
  exact ⟨runs, hr.congr hg⟩

theorem hasRuns_of_empty (h : Instance.Has textRunsName fs []) : HasRuns fs := ⟨[], h⟩

variable {text : String}

theorem writeMixed_kept (hv : List.Forall₂ (WritesKept m x) vs es)
    (hs : Instance.Has x.field fs vs) (hr : HasRuns fs) (parent : Xml.Element) :
    ∃ y, writeMixed (fieldWriters m fs) x parent = .ok y ∧ Grows (KeptAs m x) es parent y := by
  obtain ⟨runs, hruns⟩ := hr
  obtain ⟨zs, hzs, hkept⟩ := exists_writtenAs (hv.imp fun _ _ hv => hv.value)
  exact ⟨_, (writeMixed_eq_ok hs hruns).mpr ⟨zs, hzs, rfl⟩, rfl, rfl, _,
    forall₂_withTails (fun _ _ tail h => h.withTail tail) hkept runs.tail, rfl⟩

/-- The property for runs of text is apart from that for mixed content. -/
def RunsApartFrom (m : Model) (c : ClassId) (x : Property) : Prop :=
  ∀ q, m.propertyNamed? c textRunsName = some q →
    (m.prop q).field = textRunsName ∧ x.field ≠ textRunsName

/-- All children are taken as mixed content, and come back. -/
theorem readMixed_kept (ht : Unwrapping m x) (hk : ∀ k ∈ ks, ChildKept m k)
    (hx : RunsApartFrom m c x) (hs : Instance.Has x.field fs [])
    (hr : (m.propertyNamed? c textRunsName).isSome → Instance.Has textRunsName fs [])
    (h : readMixed m c x text fs ks = .ok t) :
    t.2 = [] ∧ ∃ vs, Instance.Has x.field t.1 vs ∧ AllKept m x vs ks ∧
      ((m.propertyNamed? c textRunsName).isSome → HasRuns t.1) ∧
      SameBesideMixed x (m.propertyNamed? c textRunsName).isSome fs t.1 := by
  have hne (hsome : (m.propertyNamed? c textRunsName).isSome = true) : x.field ≠ textRunsName := by
    obtain ⟨q, hq⟩ := Option.isSome_iff_exists.mp hsome
    exact (hx q hq).2
  obtain ⟨hrest, vs, hgs, hvs, hruns, hb⟩ :=
    readMixed_ok hne (fun q hq => Or.inl (hx q hq).1) hs hr h
  exact ⟨hrest, vs, hgs.has, allKept ht hk hvs, fun hsome => ⟨_, hruns hsome⟩, hb⟩

/-! ### Wrappers -/

def Mixes (m : Model) (c : ClassId) : Prop :=
  ∃ p ∈ (m.decl c).properties, (m.prop p).kind = .mixed

/-- In mixed content the runs of text have a field to themselves, or none. -/
def RunsApart (m : Model) (c : ClassId) : Prop :=
  Mixes m c → ∀ q ∈ (m.decl c).properties,
    (m.decl c).isWrapper = true ∧ (m.prop q).synthetic = true ∧ (m.prop q).field = textRunsName ∨
      (m.prop q).name ≠ textRunsName ∧ (m.prop q).field ≠ textRunsName

instance (m : Model) (c : ClassId) : Decidable (Mixes m c) :=
  inferInstanceAs (Decidable (∃ p ∈ _, _))

instance (m : Model) (c : ClassId) : Decidable (RunsApart m c) :=
  inferInstanceAs (Decidable (_ → _))

theorem RunsApart.field_ne (h : RunsApart m c) (hm : Mixes m c)
    (hp : p ∈ (m.decl c).properties)
    (hs : (m.decl c).isWrapper = false ∨ (m.prop p).synthetic = false) :
    (m.prop p).field ≠ textRunsName := by
  rcases h hm p hp with ⟨hw, hsyn, -⟩ | ⟨-, hf⟩
  · rcases hs with hs | hs
    · simp [hs] at hw
    · simp [hs] at hsyn
  · exact hf

theorem RunsApart.apartFrom (h : RunsApart m c) (hm : Mixes m c) (hp : p ∈ (m.decl c).properties)
    (hs : (m.decl c).isWrapper = false ∨ (m.prop p).synthetic = false) :
    RunsApartFrom m c (m.prop p) := by
  intro q hq
  obtain ⟨hqm, hname⟩ := mem_of_propertyNamed? hq
  refine ⟨?_, h.field_ne hm hp hs⟩
  rcases h hm q hqm with ⟨-, -, hf⟩ | ⟨hn, -⟩
  · exact hf
  · exact absurd hname hn

structure Agrees (m : Model) (w : ClassId) (l : List PropertyId) (fs gs : Fields) : Prop where
  fields : ∀ p ∈ l, (m.prop p).synthetic = false →
    Assoc.get? (m.prop p).field gs = Assoc.get? (m.prop p).field fs
  runs : Mixes m w → Assoc.get? textRunsName gs = Assoc.get? textRunsName fs

structure Vacant (m : Model) (w : ClassId) (l : List PropertyId) (fs : Fields) : Prop where
  fields : ∀ p ∈ l, (m.prop p).synthetic = false → Instance.Has (m.prop p).field fs []
  runs : Mixes m w → Instance.Has textRunsName fs []

theorem writeWrapped_vacant {R : Xml.Element → Xml.Element → Prop}
    (hl : ∀ p ∈ l, p ∈ (m.decl w).properties)
    (hf : ∀ p ∈ l, (m.prop p).synthetic = false → Instance.Has (m.prop p).field fs [])
    (hr : Mixes m w → HasRuns fs) (parent : Xml.Element) :
    ∃ y, l.foldlM (writeWrappedProperty m (fieldWriters m fs)) parent = .ok y ∧
      Grows R [] parent y := by
  induction l generalizing parent with
  | nil => exact ⟨parent, rfl, .refl parent⟩
  | cons p l ih =>
    have ih := ih (fun p' hp' => hl p' (List.mem_cons_of_mem p hp'))
      fun p' hp' => hf p' (List.mem_cons_of_mem p hp')
    have hstep : ∃ z, writeWrappedProperty m (fieldWriters m fs) parent p = .ok z ∧
        Grows R [] parent z := by
      unfold writeWrappedProperty
      dsimp only
      split
      · exact ⟨parent, rfl, .refl parent⟩
      · next hsyn =>
        have hp := hf p List.mem_cons_self (by simpa using hsyn)
        split
        · next hmixed =>
          have hruns := hr ⟨p, hl p List.mem_cons_self, hmixed⟩
          obtain ⟨z, hz, hgrows⟩ := writeMixed_kept (m := m) (x := m.prop p) .nil hp hruns parent
          exact ⟨z, hz, hgrows.imp (by simp)⟩
        · rw [itemsOf_has hp]
          exact ⟨parent, rfl, .refl parent⟩
    obtain ⟨z, hz, hgrows⟩ := hstep
    obtain ⟨y, hy, hgrows'⟩ := ih z
    refine ⟨y, ?_, hgrows.trans hgrows'⟩
    rw [List.foldlM_cons, hz]
    exact hy

/-- Where reading a wrapper has led, whose items come back among the children of its owner. -/
structure TakenBack (m : Model) (c w : ClassId) (l : List PropertyId) (s t : Progress) : Prop where
  beside : ∀ f, (∀ p ∈ l, (m.prop p).synthetic = false → f ≠ (m.prop p).field) →
    (Mixes m w → f ≠ textRunsName) → Assoc.get? f t.1 = Assoc.get? f s.1
  taken : ∃ taken, s.2 = taken ++ t.2 ∧ ∀ hs, Agrees m w l t.1 hs → ∀ parent, ∃ y,
    l.foldlM (writeWrappedProperty m (fieldWriters m hs)) parent = .ok y ∧
      Grows (KeptChild m c) (taken.map Child.element) parent y

section Wrapper

variable (hw : RunsApart m w) (hp : p ∈ (m.decl w).properties)
  (hsyn : (m.prop p).synthetic = false)
include hw hp hsyn

theorem readMixed_takenBack (hl : ∀ q ∈ l, q ∈ (m.decl w).properties)
    (hn : (m.prop p).field ∉ l.map fun q => (m.prop q).field) (hmixed : (m.prop p).kind = .mixed)
    (hitem : p ∈ itemProperties m c) (ht : Unwrapping m (m.prop p)) (hk : ∀ k ∈ ks, ChildKept m k)
    (hs : Vacant m w (p :: l) fs) (h : readMixed m w (m.prop p) text fs ks = .ok t) :
    TakenBack m c w (p :: l) (fs, ks) t := by
  have hmixes : Mixes m w := ⟨p, hp, hmixed⟩
  have hne := hw.field_ne hmixes hp (Or.inr hsyn)
  obtain ⟨hrest, vs, hgs, hvs, hruns, hb⟩ := readMixed_kept ht hk
    (hw.apartFrom hmixes hp (Or.inr hsyn)) (hs.fields p List.mem_cons_self hsyn)
    (fun _ => hs.runs hmixes) h
  have hbeside {f : String} (hf : f ≠ (m.prop p).field) (hr : f ≠ textRunsName) :
      Assoc.get? f t.1 = Assoc.get? f fs := hb f hf fun _ => hr
  -- Without a property for them there are no runs of text.
  have hruns : HasRuns t.1 := by
    by_cases hsome : (m.propertyNamed? w textRunsName).isSome = true
    · exact hruns hsome
    · exact hasRuns_of_empty ((hs.runs hmixes).congr (hb _ hne.symm fun h => absurd h hsome))
  refine ⟨fun f hf hr => hbeside (hf p List.mem_cons_self hsyn) (hr hmixes), ks,
    by rw [hrest, List.append_nil], fun hs' hagree parent => ?_⟩
  have hruns' := hruns.congr (hagree.runs hmixes)
  obtain ⟨z, hz, hgrows⟩ := writeMixed_kept (m := m) hvs
    (hgs.congr (hagree.fields p List.mem_cons_self hsyn)) hruns' parent
  obtain ⟨y, hy, hgrows'⟩ := writeWrapped_vacant (R := KeptChild m c) hl (fun q hq hqs => by
      refine (hs.fields q (List.mem_cons_of_mem p hq) hqs).congr ?_
      rw [hagree.fields q (List.mem_cons_of_mem p hq) hqs]
      refine hbeside (fun hqp => hn (hqp ▸ List.mem_map_of_mem hq)) ?_
      exact hw.field_ne hmixes (hl q hq) (Or.inr hqs)) (fun _ => hruns') z
  refine ⟨y, ?_, ?_⟩
  · rw [List.foldlM_cons]
    unfold writeWrappedProperty
    simp only [hsyn, hmixed, Bool.false_eq_true, if_false, if_true, hz]
    exact hy
  · rw [← List.append_nil (ks.map Child.element)]
    refine (hgrows.imp fun k _ y hk => ⟨p, hitem, ?_, hk⟩).trans hgrows'
    exact takesItem_of_mixed hmixed _

theorem readItems_takenBack (hn : (m.prop p).field ∉ l.map fun q => (m.prop q).field)
    (hmixed : (m.prop p).kind ≠ .mixed) (hitem : p ∈ itemProperties m c)
    (ht : Unwrapping m (m.prop p)) (hk : ∀ k ∈ ks, ChildKept m k) (hs : Vacant m w (p :: l) fs)
    (he : Instance.ensureContainer m w fs (m.prop p) = .ok gs)
    (hread : readItems m w (m.prop p) gs ks = .ok s) :
    (∀ k ∈ s.2, k ∈ ks) ∧ Vacant m w l s.1 ∧
      (TakenBack m c w l s t → TakenBack m c w (p :: l) (fs, ks) t) := by
  obtain ⟨hus, hb⟩ := Instance.has_of_ensureContainer (hs.fields p List.mem_cons_self hsyn) he
  obtain ⟨taken, vs, hks, hacc, hvs', hb', hvs⟩ := readItems_kept ht hk hus hread
  have hb := hb.trans hb'
  have hne {q : PropertyId} (hq : q ∈ l) : (m.prop q).field ≠ (m.prop p).field := fun hqp =>
    hn (hqp ▸ List.mem_map_of_mem hq)
  have hruns (hmixes : Mixes m w) := hw.field_ne hmixes hp (Or.inr hsyn)
  refine ⟨fun k hk => hks ▸ List.mem_append_right _ hk, ⟨fun q hq hqs => ?_, fun hmixes => ?_⟩, ?_⟩
  · exact (hs.fields q (List.mem_cons_of_mem p hq) hqs).congr (hb _ (hne hq))
  · exact (hs.runs hmixes).congr (hb _ (hruns hmixes).symm)
  intro h
  obtain ⟨taken', hrest, hwrite⟩ := h.taken
  refine ⟨fun f hf hr => ?_, taken ++ taken', ?_, fun hs' hagree parent => ?_⟩
  · rw [h.beside f (fun q hq => hf q (List.mem_cons_of_mem p hq)) hr]
    exact hb f (hf p List.mem_cons_self hsyn)
  · rw [hks, hrest, List.append_assoc]
  have hlast : Assoc.get? (m.prop p).field t.1 = Assoc.get? (m.prop p).field s.1 :=
    h.beside _ (fun q hq _ => (hne hq).symm) hruns
  have hitems : Instance.Has (m.prop p).field hs' vs :=
    hvs'.congr ((hagree.fields p List.mem_cons_self hsyn).trans hlast)
  obtain ⟨z, hz, hgrows⟩ := writeItems_kept hvs parent
  obtain ⟨y, hy, hgrows'⟩ := hwrite hs'
    ⟨fun q hq => hagree.fields q (List.mem_cons_of_mem p hq), hagree.runs⟩ z
  refine ⟨y, ?_, ?_⟩
  · rw [List.foldlM_cons]
    unfold writeWrappedProperty
    dsimp only
    rw [hsyn, if_neg hmixed, itemsOf_has hitems]
    change (writeItems (m.prop p) parent (valueWriters m vs)).bind _ = _
    rw [hz]
    exact hy
  · rw [List.map_append]
    refine (hgrows.imp fun k hk y hkept => ⟨p, hitem, ?_, hkept⟩).trans hgrows'
    obtain ⟨k', hk', rfl⟩ := List.mem_map.mp hk
    exact takesItem_of_accepts (hacc k' hk')

end Wrapper

/-- What a wrapper takes comes back among the children of its owner. -/
theorem readWrapped_takenBack (hw : RunsApart m w) (hl : ∀ p ∈ l, p ∈ (m.decl w).properties)
    (hn : (l.map fun p => (m.prop p).field).Nodup)
    (hitem : ∀ p ∈ l, (m.prop p).synthetic = false → p ∈ itemProperties m c)
    (ht : ∀ p ∈ l, Unwrapping m (m.prop p)) (hk : ∀ k ∈ s.2, ChildKept m k)
    (hs : Vacant m w l s.1) (h : readWrapped m w text l s = .ok t) : TakenBack m c w l s t := by
  induction l generalizing s with
  | nil =>
    cases h
    exact ⟨fun _ _ _ => rfl, [], rfl, fun _ _ parent => ⟨parent, rfl, .refl parent⟩⟩
  | cons p l ih =>
    obtain ⟨fs, ks⟩ := s
    obtain ⟨hnp, hn⟩ := List.nodup_cons.mp hn
    have later {q} (hq : q ∈ l) := List.mem_cons_of_mem p hq
    have hp := hl p List.mem_cons_self
    have hl := fun q hq => hl q (later hq)
    have ih {s : Progress} := @ih s hl hn (fun q hq => hitem q (later hq)) fun q hq => ht q (later hq)
    have htp := ht p List.mem_cons_self
    rw [readWrapped] at h
    split at h
    · next hsyn =>
      have htaken := ih hk ⟨fun q hq => hs.fields q (later hq), hs.runs⟩ h
      obtain ⟨taken, hks, hwrite⟩ := htaken.taken
      refine ⟨fun f hf => htaken.beside f fun q hq => hf q (later hq), taken, hks,
        fun hs' hagree parent => ?_⟩
      obtain ⟨y, hy, hgrows⟩ :=
        hwrite hs' ⟨fun q hq => hagree.fields q (later hq), hagree.runs⟩ parent
      refine ⟨y, ?_, hgrows⟩
      rw [List.foldlM_cons]
      unfold writeWrappedProperty
      simp only [hsyn, if_true]
      exact hy
    · next hsyn =>
      have hsyn : (m.prop p).synthetic = false := by simpa using hsyn
      have hitem := hitem p List.mem_cons_self hsyn
      split at h
      · next hmixed =>
        exact readMixed_takenBack hw hp hsyn hl hnp hmixed hitem htp hk hs h
      · next hmixed =>
        obtain ⟨gs, he, h⟩ := exceptBind_eq_ok.mp h
        obtain ⟨u, hu, h⟩ := exceptBind_eq_ok.mp h
        obtain ⟨hsub, hvacant, hback⟩ :=
          readItems_takenBack (t := t) hw hp hsyn hnp hmixed hitem htp hk hs he hu
        exact hback (ih (fun k hku => hk k (hsub k hku)) hvacant h)

end Enfold.Binding
