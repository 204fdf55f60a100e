import Enfold.Proofs.Binding.Document
import Enfold.Proofs.Model.Walk

/-! # Documents that follow their declarations

A document follows a model if every element of it has what the class of the element declares, in
the order of the declarations. A model that has some of the declared properties in wrappers reads
such a document and writes what it has read into the same tree.
-/

namespace Enfold

namespace Xml.Element

/-- Elements that are the same but for the order of their attributes. -/
inductive SameTree : Element → Element → Prop
  | intro {a b : Element} (tag : a.tag = b.tag) (text : a.text = b.text) (tail : a.tail = b.tail)
      (attributes : ∀ name, Assoc.get? name a.attributes = Assoc.get? name b.attributes)
      (children : List.Forall₂ SameTree a.children b.children) : SameTree a b

mutual

theorem SameTree.refl : ∀ e : Element, SameTree e e
  | ⟨_, _, _, _, children⟩ => ⟨rfl, rfl, rfl, fun _ => rfl, SameTree.refl_all children⟩

theorem SameTree.refl_all : ∀ es : List Element, List.Forall₂ SameTree es es
  | [] => .nil
  | e :: es => .cons (SameTree.refl e) (SameTree.refl_all es)

end

end Xml.Element

namespace Binding

variable {m m' : Model} {c d : ClassId} {x x' : Property} {p q : PropertyId} {fs gs : Fields}
  {vs xs : List Datum} {e k y : Xml.Element} {es ys : List Xml.Element} {parent : Xml.Element}
  {ps qs : List PropertyId}

mutual

/-- The element follows the declaration of a class of `m` and is read through `m'`. -/
inductive Conforms (m m' : Model) : ClassId → Xml.Element → Prop
  | intro {c : ClassId} {e : Xml.Element}
      (attributes : ∀ name, Assoc.contains name e.attributes →
        ∃ p ∈ (m.decl c).properties, (m.prop p).isAttribute ∧ (m.prop p).name = name)
      (text : e.text = "" ∨
        Text.trim e.text ≠ "" ∧ ∀ p ∈ (m.decl c).properties, (m.prop p).isAttribute)
      (tail : e.tail = "")
      (children : Follows m m' (m.decl c).properties e.children) : Conforms m m' c e

/-- Child elements are the values of some properties in their order. -/
inductive Follows (m m' : Model) : List PropertyId → List Xml.Element → Prop
  | nil : Follows m m' [] []
  | skip {p : PropertyId} {ps : List PropertyId} {es : List Xml.Element}
      (isAttribute : (m.prop p).isAttribute = true) (rest : Follows m m' ps es) :
      Follows m m' (p :: ps) es
  | take {p : PropertyId} {ps : List PropertyId} {es rest : List Xml.Element}
      (isAttribute : (m.prop p).isAttribute = false)
      (accepted : ∀ k ∈ es, accepts (m.prop p) k.tag = true)
      (values : ∀ k ∈ es, IsValue m m' (m.prop p) k)
      (single : (m'.prop p).multiplicity ≠ .repeated → es.length ≤ 1)
      (next : ∀ k ∈ rest.head?, accepts (m.prop p) k.tag = false)
      (follows : Follows m m' ps rest) : Follows m m' (p :: ps) (es ++ rest)

/-- Anything, text alone, or an object of a class. -/
inductive IsValue (m m' : Model) : Property → Xml.Element → Prop
  | any {x : Property} {k : Xml.Element} (kind : x.kind = .any) (tail : k.tail = "") :
      IsValue m m' x k
  | text {x : Property} {k : Xml.Element} (kind : x.kind ≠ .any)
      (type : m'.classOfType? (typeFor x k.tag) = none) (attributes : k.attributes = [])
      (children : k.children = []) (tail : k.tail = "") : IsValue m m' x k
  | object {x : Property} {k : Xml.Element} {d : ClassId} (kind : x.kind ≠ .any)
      (type : m'.classOfType? (typeFor x k.tag) = some d) (conforms : Conforms m m' d k) :
      IsValue m m' x k

end

/-! ### Values that are written back -/

def ReadsBack (m : Model) (c : ClassId) (e : Xml.Element) (r : Except BindingError Datum) : Prop :=
  ∃ fs, r = .ok (.object c fs) ∧ Assoc.get? elementField fs = none ∧
    ∀ gs, SameBeside elementField fs gs →
      ∃ y, writeObject m c (fieldWriters m gs) e.tag = .ok y ∧ y.SameTree e

def Readable (m m' : Model) (k : Child) : Prop :=
  ∀ d ∈ m.walk, Conforms m m' d k.element → ReadsBack m' d k.element (k.read d)

structure WritesBack (m : Model) (x : Property) (v : Datum) (e : Xml.Element) : Prop where
  isNull : v.isNull = false
  value : ∃ y, (writer m v).value x = .ok y ∧ y.SameTree e

structure SameValues (x x' : Property) : Prop where
  kind : x.kind = .element ∨ x.kind = .any
  kind_eq : x'.kind = x.kind
  name : x'.name = x.name
  substitutes : x'.substitutes = x.substitutes
  valueType : x.kind ≠ .any → x'.valueType = x.valueType

theorem SameValues.accepts (h : SameValues x x') (tag : String) :
    accepts x' tag = accepts x tag := by
  unfold Binding.accepts
  rw [h.kind_eq, h.name, h.substitutes]

theorem SameValues.ne_mixed (h : SameValues x x') : x'.kind ≠ .mixed := by
  rw [h.kind_eq]
  rcases h.kind with hk | hk <;> simp [hk]

theorem readValue_writesBack {k : Child} (h : SameValues x x') (hk : Readable m m' k)
    (ht : ∀ d, m'.classOfType? (typeFor x k.element.tag) = some d → d ∈ m.walk)
    (ha : Binding.accepts x k.element.tag = true) (hv : IsValue m m' x k.element) :
    ∃ v, readValue m' x' k = .ok v ∧ WritesBack m' x' v k.element := by
  have htype (hne : x.kind ≠ .any) : typeFor x' k.element.tag = typeFor x k.element.tag := by
    unfold typeFor
    rw [h.substitutes, h.valueType hne]
  have hmixed := h.ne_mixed
  cases hv with
  | any kind tail =>
    refine ⟨.element k.element, ?_, rfl, _, rfl, ?_⟩
    · rw [readValue, if_pos (h.kind_eq.trans kind)]
    · exact ⟨rfl, rfl, tail.symm, fun _ => rfl, Xml.Element.SameTree.refl_all _⟩
  | text kind type attributes children tail =>
    have hkind : x.kind = .element := h.kind.resolve_right kind
    have htag : k.element.tag = x.name := by simpa [Binding.accepts, hkind] using ha
    refine ⟨.text k.element.text, ?_, rfl, _, rfl, ?_⟩
    · rw [readValue, if_neg (h.kind_eq ▸ kind), htype kind, type]
      exact congrArg Except.ok (if_neg hmixed)
    · refine ⟨h.name.trans htag.symm, rfl, tail.symm, fun name => ?_, ?_⟩
      · rw [attributes]
        rfl
      · rw [children]
        exact .nil
  | @object _ _ d kind type conforms =>
    obtain ⟨fs, hread, hnone, hwrite⟩ := hk d (ht d type) conforms
    obtain ⟨y, hy, hsame⟩ := hwrite _ (sameBeside_put elementField (.text k.element.tag) fs)
    refine ⟨.object d (Assoc.put elementField (.text k.element.tag) fs), ?_, rfl, y, ?_, hsame⟩
    · rw [readValue, if_neg (h.kind_eq ▸ kind), htype kind, type]
      simp [hread, Assoc.contains, hnone, bind, Except.bind, pure, Except.pure]
    · change (tagOf _ x').bind _ = _
      rw [tagOf_put]
      exact hy

theorem readItems_writesBack {ks rest : List Child} (h : SameValues x x')
    (hx : Instance.wrappedField m' c (some x'.field) = .ok x')
    (hk : ∀ k ∈ ks, Readable m m' k)
    (ht : ∀ tag d, m'.classOfType? (typeFor x tag) = some d → d ∈ m.walk)
    (ha : ∀ k ∈ ks, accepts x k.element.tag = true) (hv : ∀ k ∈ ks, IsValue m m' x k.element)
    (hrest : ∀ k ∈ rest.head?, accepts x k.element.tag = false) (hs : Instance.Holds x' fs xs) :
    ∃ gs vs, readItems m' c x' fs (ks ++ rest) = .ok (gs, rest) ∧ Instance.Holds x' gs (xs ++ vs) ∧
      SameBeside x'.field fs gs ∧
        List.Forall₂ (WritesBack m' x') vs (ks.map Child.element) := by
  induction ks generalizing fs xs with
  | nil =>
    refine ⟨fs, [], ?_, by rwa [List.append_nil], .refl _ _, .nil⟩
    cases rest with
    | nil => rfl
    | cons k rest =>
      rw [List.nil_append, readItems, h.accepts, hrest k rfl]
      rfl
  | cons k ks ih =>
    have later {k'} (hk' : k' ∈ ks) := List.mem_cons_of_mem k hk'
    obtain ⟨v, hread, hwrite⟩ := readValue_writesBack h (hk k List.mem_cons_self)
      (ht k.element.tag) (ha k List.mem_cons_self) (hv k List.mem_cons_self)
    obtain ⟨gs, happ, hholds, hb⟩ := Instance.append_ok hx hs v
    obtain ⟨hs', vs, hrun, hend, hb', hvs⟩ := ih (fun k' hk' => hk k' (later hk'))
      (fun k' hk' => ha k' (later hk')) (fun k' hk' => hv k' (later hk')) hholds
    refine ⟨hs', v :: vs, ?_, by simpa using hend, hb.trans hb', .cons hwrite hvs⟩
    rw [List.cons_append, readItems, h.accepts, ha k List.mem_cons_self, hread]
    change (Instance.append m' c fs v (some x'.field)).bind _ = _
    rw [happ]
    exact hrun

theorem writeItems_writesBack (h : List.Forall₂ (WritesBack m x) vs es) (parent : Xml.Element) :
    ∃ ys, List.Forall₂ Xml.Element.SameTree ys es ∧ writeItems x parent (valueWriters m vs) =
      .ok { parent with children := parent.children ++ ys } := by
  induction h generalizing parent with
  | nil =>
    refine ⟨[], .nil, ?_⟩
    rw [List.append_nil, valueWriters, List.map_nil, writeItems, List.foldlM_nil]
    cases parent
    rfl
  | @cons v e vs es hv _ ih =>
    obtain ⟨y, hy, hsame⟩ := hv.value
    obtain ⟨ys, hys, hrun⟩ := ih (addChild parent y)
    refine ⟨y :: ys, .cons hsame hys, ?_⟩
    have hstep : writeItems x parent (valueWriters m (v :: vs)) =
        writeItems x (addChild parent y) (valueWriters m vs) := by
      simp [writeItems, valueWriters, List.foldlM_cons, hy, Except.map, bind, Except.bind]
    rw [hstep, hrun]
    simp [addChild]

/-! ### One place -/

/-- In the second model a property is as it was, or in a wrapper. -/
inductive Stands (m m' : Model) (p q : PropertyId) : Prop
  | kept (same : q = p) (prop : m'.prop p = m.prop p) (reference : (m.prop p).reference = none)
      (instantiation : (m.prop p).instantiation = none)
      (values : (m.prop p).isAttribute = true ∨ SameValues (m.prop p) (m'.prop p))
  | wrapped {w : ClassId} (isAttribute : (m.prop p).isAttribute = false)
      (isAttribute' : (m'.prop q).isAttribute = false) (reference : (m'.prop q).reference = some w)
      (properties : (m'.decl w).properties = [p]) (synthetic : (m'.prop p).synthetic = false)
      (values : SameValues (m.prop p) (m'.prop p))

def declares (m : Model) (ps : List PropertyId) (name : String) : Bool :=
  ps.any fun p => (m.prop p).isAttribute && (m.prop p).name = name

/-- Children like some others, and the attributes of `e` that some properties declare, have come in.
-/
structure Adds (m : Model) (e : Xml.Element) (ps : List PropertyId) (es : List Xml.Element)
    (parent y : Xml.Element) : Prop where
  tag : y.tag = parent.tag
  text : y.text = parent.text
  tail : y.tail = parent.tail
  children : ∃ ys, List.Forall₂ Xml.Element.SameTree ys es ∧ y.children = parent.children ++ ys
  attributes : ∀ name, Assoc.get? name y.attributes =
    if declares m ps name then (Assoc.get? name e.attributes).or (Assoc.get? name parent.attributes)
    else Assoc.get? name parent.attributes

theorem attributes_append {y z : Xml.Element} {name : String}
    (h : Assoc.get? name y.attributes =
      if declares m ps name then (Assoc.get? name e.attributes).or (Assoc.get? name parent.attributes)
      else Assoc.get? name parent.attributes)
    (h' : Assoc.get? name z.attributes =
      if declares m qs name then (Assoc.get? name e.attributes).or (Assoc.get? name y.attributes)
      else Assoc.get? name y.attributes) :
    Assoc.get? name z.attributes =
      if declares m (ps ++ qs) name then
        (Assoc.get? name e.attributes).or (Assoc.get? name parent.attributes)
      else Assoc.get? name parent.attributes := by
  rw [h', h, declares, declares, declares, List.any_append]
  cases Assoc.get? name e.attributes <;> grind

theorem Adds.trans {y z : Xml.Element} {fs : List Xml.Element} (h : Adds m e ps es parent y)
    (h' : Adds m e qs fs y z) : Adds m e (ps ++ qs) (es ++ fs) parent z where
  tag := h'.tag.trans h.tag
  text := h'.text.trans h.text
  tail := h'.tail.trans h.tail
  children := by
    obtain ⟨ys, hys, hy⟩ := h.children
    obtain ⟨zs, hzs, hz⟩ := h'.children
    exact ⟨ys ++ zs, List.rel_append hys hzs, by rw [hz, hy, List.append_assoc]⟩
  attributes name := attributes_append (h.attributes name) (h'.attributes name)

/-- Where reading a place has led, which is written as it was in the element. -/
structure PlaceBack (m m' : Model) (e : Xml.Element) (p q : PropertyId) (es : List Xml.Element)
    (fs gs : Fields) : Prop where
  beside : SameBeside (m'.prop q).field fs gs
  writes : ∀ hs parent, Assoc.get? (m'.prop q).field hs = Assoc.get? (m'.prop q).field gs →
    ∃ y, writeProperty m' (fieldWriters m' hs) parent q = .ok y ∧ Adds m e [p] es parent y

theorem adds_nothing (h : ∀ name, declares m [p] name → Assoc.get? name e.attributes = none)
    (parent : Xml.Element) : Adds m e [p] [] parent parent where
  tag := rfl
  text := rfl
  tail := rfl
  children := ⟨[], .nil, (List.append_nil _).symm⟩
  attributes name := by
    split
    · next hd => rw [h name hd, Option.none_or]
    · rfl

theorem adds_children (ha : (m.prop p).isAttribute = false)
    (h : List.Forall₂ Xml.Element.SameTree ys es) (parent : Xml.Element) :
    Adds m e [p] es parent { parent with children := parent.children ++ ys } where
  tag := rfl
  text := rfl
  tail := rfl
  children := ⟨ys, h, rfl⟩
  attributes name := by
    have hd : declares m [p] name = false := by simp [declares, ha]
    rw [hd]
    rfl

theorem readProperty_attribute {ks : List Child} (ha : (m.prop p).isAttribute = true)
    (hp : m'.prop q = m.prop p) (hnone : Assoc.get? (m'.prop q).field fs = none) :
    ∃ gs, readProperty m' c e (fs, ks) q = .ok (gs, ks) ∧ PlaceBack m m' e p q [] fs gs := by
  have hname {name : String} (hd : declares m [p] name = true) : (m.prop p).name = name := by
    simpa [declares, ha] using hd
  unfold readProperty
  dsimp only
  rw [if_pos (by rw [hp, ha])]
  cases hv : Assoc.get? (m'.prop q).name e.attributes with
  | none =>
    refine ⟨fs, rfl, .refl _ _, fun hs parent hhs => ⟨parent, ?_, adds_nothing ?_ parent⟩⟩
    · exact writeProperty_of_absent (hhs.trans hnone)
    · intro name hd
      rw [← hname hd, ← hp, hv]
  | some v =>
    refine ⟨_, rfl, sameBeside_put _ _ _, fun hs parent hhs => ?_⟩
    rw [Assoc.get?_put_self] at hhs
    refine ⟨_, writeProperty_of_attribute (by rw [hp, ha]) hhs, rfl, rfl, rfl,
      ⟨[], .nil, (List.append_nil _).symm⟩, fun name => ?_⟩
    by_cases hn : (m.prop p).name = name
    · have hd : declares m [p] name = true := by simp [declares, ha, hn]
      have hn' : (m'.prop q).name = name := by rw [hp, hn]
      rw [if_pos hd, ← hn', Assoc.get?_put_self, hv]
      rfl
    · have hd : ¬ declares m [p] name = true := fun hd => hn (hname hd)
      rw [if_neg hd, Assoc.get?_put_of_ne (by rwa [hp])]

section Elements

variable {ks rest : List Child}

variable (ha : (m.prop p).isAttribute = false)
  (hx : SameValues (m.prop p) (m'.prop p))
  (ht : ∀ tag d, m'.classOfType? (typeFor (m.prop p) tag) = some d → d ∈ m.walk)
  (hk : ∀ k ∈ ks, Readable m m' k)
  (haccepts : ∀ k ∈ ks, accepts (m.prop p) k.element.tag = true)
  (hv : ∀ k ∈ ks, IsValue m m' (m.prop p) k.element)
  (hrest : ∀ k ∈ rest.head?, accepts (m.prop p) k.element.tag = false)
  (hnone : Assoc.get? (m'.prop q).field fs = none)

include ha hx ht hk haccepts hv hrest hnone

theorem readProperty_kept_elements (hq : q = p) (hp : m'.prop p = m.prop p)
    (href : (m.prop p).reference = none) (hinst : (m.prop p).instantiation = none)
    (hfield : Instance.wrappedField m' c (some (m'.prop q).field) = .ok (m'.prop q))
    (hsingle : (m'.prop p).multiplicity ≠ .repeated → ks.length ≤ 1) :
    ∃ gs, readProperty m' c e (fs, ks ++ rest) q = .ok (gs, rest) ∧
      PlaceBack m m' e p q (ks.map Child.element) fs gs := by
  subst hq
  have hplain : Plain (m'.prop q) := ⟨hp ▸ ha, hp ▸ href, hx.ne_mixed⟩
  by_cases hr : (m'.prop q).multiplicity = .repeated
  · have hi : (m'.prop q).instantiation ≠ some .byCaller := by simp [hp, hinst]
    obtain ⟨gs, vs, hrun, hholds, hb, hvs⟩ := readItems_writesBack hx hfield hk ht haccepts hv hrest
      (Or.inr ⟨hnone, rfl, hi⟩)
    refine ⟨gs, ?_, hb, fun hs parent hhs => ?_⟩
    · rw [readProperty_of_repeated hplain hr]
      exact hrun
    · obtain ⟨ys, hys, hwrite⟩ := writeItems_writesBack hvs parent
      refine ⟨_, ?_, adds_children ha hys parent⟩
      rw [writeProperty_of_repeated hplain hr (hholds.congr hhs).has, List.nil_append, hwrite]
  · have hlen := hsingle hr
    rcases ks with _ | ⟨k, _ | ⟨k', ks⟩⟩
    · refine ⟨fs, ?_, .refl _ _, fun hs parent hhs => ⟨parent, ?_, adds_nothing ?_ parent⟩⟩
      · exact readProperty_of_missed hplain fun k hk => (hx.accepts _).trans (hrest k hk)
      · exact writeProperty_of_absent (hhs.trans hnone)
      · simp [declares, ha]
    · obtain ⟨v, hval, hback⟩ := readValue_writesBack hx (hk k List.mem_cons_self)
        (ht k.element.tag) (haccepts k List.mem_cons_self) (hv k List.mem_cons_self)
      obtain ⟨y, hy, hsame⟩ := hback.value
      refine ⟨Assoc.put (m'.prop q).field v fs, ?_, sameBeside_put _ _ _, fun hs parent hhs => ?_⟩
      · rw [List.singleton_append, readProperty_cons hplain hr,
          if_pos (by rw [hx.accepts, haccepts k List.mem_cons_self]), hval]
        rfl
      · rw [Assoc.get?_put_self] at hhs
        refine ⟨_, ?_, adds_children ha (.cons hsame .nil) parent⟩
        rw [hplain.writeProperty hhs hback.isNull, if_neg hr, hy]
        rfl
    · simp at hlen

omit hnone in
theorem readProperty_wrapped_elements {w : ClassId} (hattr : (m'.prop q).isAttribute = false)
    (href : (m'.prop q).reference = some w) (hw : (m'.decl w).properties = [p])
    (hsyn : (m'.prop p).synthetic = false) :
    ∃ gs, readProperty m' c e (fs, ks ++ rest) q = .ok (gs, rest) ∧
      PlaceBack m m' e p q (ks.map Child.element) fs gs := by
  have hfield : Instance.wrappedField m' w (some (m'.prop p).field) = .ok (m'.prop p) :=
    Instance.wrappedField_of_mem (by simp [Model.fields, hw]) (by simp [hw])
  obtain ⟨us, hu, hus⟩ := Instance.ensureContainer_ok hfield fun d hd => Instance.get?_fresh hw hd
  obtain ⟨gs, vs, hrun, hholds, -, hvs⟩ :=
    readItems_writesBack hx hfield hk ht haccepts hv hrest hus
  refine ⟨Assoc.put (m'.prop q).field (.object w gs) fs, ?_, sameBeside_put _ _ _,
    fun hs parent hhs => ?_⟩
  · unfold readProperty
    simp only [hattr, href, hw, readWrapped_singleton hsyn hx.ne_mixed hu, hrun, Bool.false_eq_true,
      if_false]
    rfl
  · rw [Assoc.get?_put_self] at hhs
    obtain ⟨ys, hys, hwrite⟩ := writeItems_writesBack hvs parent
    refine ⟨_, ?_, adds_children ha hys parent⟩
    rw [writeProperty_of_wrapper hattr href hw hsyn hx.ne_mixed hhs hholds, List.nil_append, hwrite]

end Elements

/-! ### All places of a class -/

structure PlacesBack (m m' : Model) (e : Xml.Element) (ps qs : List PropertyId)
    (es : List Xml.Element) (fs gs : Fields) : Prop where
  beside : ∀ f, f ∉ qs.map (fun q => (m'.prop q).field) → Assoc.get? f gs = Assoc.get? f fs
  writes : ∀ hs parent,
    (∀ q ∈ qs, Assoc.get? (m'.prop q).field hs = Assoc.get? (m'.prop q).field gs) →
      ∃ y, qs.foldlM (writeProperty m' (fieldWriters m' hs)) parent = .ok y ∧
        Adds m e ps es parent y

theorem PlaceBack.cons {us : Fields} {rest : List Xml.Element} (h : PlaceBack m m' e p q es fs gs)
    (h' : PlacesBack m m' e ps qs rest gs us)
    (hq : (m'.prop q).field ∉ qs.map fun q => (m'.prop q).field) :
    PlacesBack m m' e (p :: ps) (q :: qs) (es ++ rest) fs us where
  beside f hf := by
    rw [List.map_cons, List.mem_cons, not_or] at hf
    rw [h'.beside f hf.2, h.beside f hf.1]
  writes hs parent hhs := by
    obtain ⟨y, hy, hadds⟩ := h.writes hs parent ((hhs q List.mem_cons_self).trans (h'.beside _ hq))
    obtain ⟨z, hz, hadds'⟩ := h'.writes hs y fun q' hq' => hhs q' (List.mem_cons_of_mem q hq')
    refine ⟨z, ?_, hadds.trans hadds'⟩
    rw [List.foldlM_cons, hy]
    exact hz

/-- The step of reading: one place takes its values and leaves the rest. -/
theorem readProperty_follows {ks : List Child} (h : Stands m m' p q)
    (hfield : Instance.wrappedField m' c (some (m'.prop q).field) = .ok (m'.prop q))
    (ht : ∀ tag d, m'.classOfType? (typeFor (m.prop p) tag) = some d → d ∈ m.walk)
    (hk : ∀ k ∈ ks, Readable m m' k) (hf : Follows m m' (p :: ps) (ks.map Child.element))
    (hnone : Assoc.get? (m'.prop q).field fs = none) :
    ∃ gs es rest, readProperty m' c e (fs, ks) q = .ok (gs, rest) ∧
      PlaceBack m m' e p q es fs gs ∧ ks.map Child.element = es ++ rest.map Child.element ∧
        (∀ k ∈ rest, k ∈ ks) ∧ Follows m m' ps (rest.map Child.element) := by
  generalize hes : ks.map Child.element = es at hf
  cases hf with
  | skip ha hfollows =>
    subst hes
    cases h with
    | kept same prop _ _ _ =>
      have hback : ∃ gs, readProperty m' c e (fs, ks) q = .ok (gs, ks) ∧
          PlaceBack m m' e p q [] fs gs := readProperty_attribute ha (same ▸ prop) hnone
      obtain ⟨gs, hread, hback⟩ := hback
      exact ⟨gs, [], ks, hread, hback, rfl, fun _ h => h, hfollows⟩
    | wrapped hattr => simp [ha] at hattr
  | take ha accepted values single next hfollows =>
    obtain ⟨ks₁, ks₂, rfl, rfl, rfl⟩ := List.map_eq_append_iff.mp hes
    have hk₁ (k) (hk' : k ∈ ks₁) := hk k (List.mem_append_left _ hk')
    have haccepts : ∀ k ∈ ks₁, accepts (m.prop p) k.element.tag = true :=
      fun k hk => accepted _ (List.mem_map_of_mem hk)
    have hvalues : ∀ k ∈ ks₁, IsValue m m' (m.prop p) k.element :=
      fun k hk => values _ (List.mem_map_of_mem hk)
    have hnext : ∀ k ∈ ks₂.head?, accepts (m.prop p) k.element.tag = false := by
      intro k hk
      refine next _ ?_
      rw [List.head?_map]
      exact Option.mem_map_of_mem _ hk
    suffices hback : ∃ gs, readProperty m' c e (fs, ks₁ ++ ks₂) q = .ok (gs, ks₂) ∧
        PlaceBack m m' e p q (ks₁.map Child.element) fs gs by
      obtain ⟨gs, hread, hback⟩ := hback
      exact ⟨gs, _, ks₂, hread, hback, rfl, fun _ h => List.mem_append_right _ h, hfollows⟩
    cases h with
    | kept same prop reference instantiation hvals =>
      exact readProperty_kept_elements ha (hvals.resolve_left (by simp [ha])) ht hk₁ haccepts
        hvalues hnext hnone same prop reference instantiation hfield (by simpa using single)
    | wrapped hattr hattr' reference properties synthetic hvals =>
      exact readProperty_wrapped_elements ha hvals ht hk₁ haccepts hvalues hnext hattr' reference
        properties synthetic

/-- All places of a class take their values, and nothing is left. -/
theorem readProperties_follows {ks : List Child} (h : List.Forall₂ (Stands m m') ps qs)
    (hn : (qs.map fun q => (m'.prop q).field).Nodup)
    (hfield : ∀ q ∈ qs, Instance.wrappedField m' c (some (m'.prop q).field) = .ok (m'.prop q))
    (ht : ∀ p ∈ ps, ∀ tag d, m'.classOfType? (typeFor (m.prop p) tag) = some d → d ∈ m.walk)
    (hk : ∀ k ∈ ks, Readable m m' k) (hf : Follows m m' ps (ks.map Child.element))
    (hnone : ∀ q ∈ qs, Assoc.get? (m'.prop q).field fs = none) :
    ∃ gs, qs.foldlM (readProperty m' c e) (fs, ks) = .ok (gs, []) ∧
      PlacesBack m m' e ps qs (ks.map Child.element) fs gs := by
  induction h generalizing fs ks with
  | nil =>
    generalize hes : ks.map Child.element = es at hf
    cases hf
    obtain rfl := List.map_eq_nil_iff.mp hes
    refine ⟨fs, rfl, fun _ _ => rfl, fun hs parent _ => ⟨parent, rfl, rfl, rfl, rfl, ?_, ?_⟩⟩
    · exact ⟨[], .nil, (List.append_nil _).symm⟩
    · exact fun _ => rfl
  | @cons p q ps qs hpq _ ih =>
    obtain ⟨hq, hn⟩ := List.nodup_cons.mp hn
    have later {q'} (hq' : q' ∈ qs) := List.mem_cons_of_mem q hq'
    obtain ⟨gs, es, rest, hread, hback, hsplit, hsub, hfollows⟩ := readProperty_follows (e := e) hpq
      (hfield q List.mem_cons_self) (ht p List.mem_cons_self) hk hf (hnone q List.mem_cons_self)
    obtain ⟨us, hrun, hbacks⟩ := ih hn (fun q' hq' => hfield q' (later hq'))
      (fun p' hp' => ht p' (List.mem_cons_of_mem p hp')) (fun k hk' => hk k (hsub k hk')) hfollows
      fun q' hq' => by
        rw [hback.beside, hnone q' (later hq')]
        exact fun hqq => hq (List.mem_map.mpr ⟨q', hq', hqq⟩)
    refine ⟨us, ?_, hsplit ▸ hback.cons hbacks hq⟩
    rw [List.foldlM_cons, hread]
    exact hrun

end Binding

/-! ### Objects and documents -/

/-- The second model has the properties of the first, as they were or in wrappers. -/
structure Model.Carries (m m' : Model) : Prop where
  isWrapper : ∀ c ∈ m.walk, (m'.decl c).isWrapper = false
  stands : ∀ c ∈ m.walk,
    List.Forall₂ (Binding.Stands m m') (m.decl c).properties (m'.decl c).properties
  types : ∀ p ∈ m.walkProperties, ∀ tag d,
    m'.classOfType? (Binding.typeFor (m.prop p) tag) = some d → d ∈ m.walk
  nodup : ∀ c ∈ m.walk, (m'.fields c).Nodup
  reserved : ∀ c ∈ m.walk, textField ∉ m'.fields c ∧ elementField ∉ m'.fields c

namespace Binding

theorem Stands.isAttribute_eq (h : Stands m m' p q) :
    (m'.prop q).isAttribute = (m.prop p).isAttribute := by
  cases h with
  | kept same prop => rw [same, prop]
  | wrapped hattr hattr' => rw [hattr, hattr']

theorem Follows.eq_nil (h : Follows m m' ps es) (ha : ∀ p ∈ ps, (m.prop p).isAttribute = true) :
    es = [] := by
  induction ps generalizing es with
  | nil =>
    cases h
    rfl
  | cons p ps ih =>
    cases h with
    | skip _ rest => exact ih rest fun p' hp' => ha p' (List.mem_cons_of_mem p hp')
    | take hp => exact absurd (ha p List.mem_cons_self) (by simp [hp])

theorem asked_or_bound_of_rootClass {asked : Option String} {tag : String}
    (h : rootClass m asked tag = .ok c) : (∃ name ∈ asked, m.findClass? name = some c) ∨
      (m.decl c).isWrapper = false ∧ boundElement m c = tag := by
  unfold rootClass at h
  split at h
  · next name hname =>
    split at h
    · next hf =>
      cases h
      exact Or.inl ⟨name, (Option.filter_eq_some_iff.mp hname).1, hf⟩
    · cases h
  · split at h
    · next hf =>
      cases h
      exact Or.inr (by simpa using List.find?_some hf)
    · cases h

theorem bound_of_rootClass {tag : String} (h : rootClass m none tag = .ok c) :
    (m.decl c).isWrapper = false ∧ boundElement m c = tag :=
  (asked_or_bound_of_rootClass h).resolve_left fun ⟨_, hname, _⟩ => nomatch hname

theorem PlacesBack.writeObject {us hs : Fields} (h : m.Carries m') (hc : c ∈ m.walk)
    (hback : PlacesBack m m' e (m.decl c).properties (m'.decl c).properties e.children [] gs)
    (hdeclared : ∀ name, Assoc.contains name e.attributes →
      ∃ p ∈ (m.decl c).properties, (m.prop p).isAttribute ∧ (m.prop p).name = name)
    (htail : e.tail = "") (hus : SameBeside textField gs us)
    (htext : Assoc.get? textField us = none ∧ e.text = "" ∨
      Assoc.get? textField us = some (.text e.text)) (hhs : SameBeside elementField us hs) :
    ∃ y, Binding.writeObject m' c (fieldWriters m' hs) e.tag = .ok y ∧ y.SameTree e := by
  obtain ⟨hrt, hre⟩ := h.reserved c hc
  obtain ⟨y, hy, hadds⟩ := hback.writes hs { tag := e.tag, text := e.text } fun q hq => by
    have hf : (m'.prop q).field ∈ m'.fields c := List.mem_map_of_mem hq
    rw [hhs _ fun he => hre (he ▸ hf), hus _ fun he => hrt (he ▸ hf)]
  obtain ⟨ys, hys, hchildren⟩ := hadds.children
  refine ⟨y, ?_, hadds.tag, hadds.text, hadds.tail.trans htail.symm, fun name => ?_, ?_⟩
  · unfold Binding.writeObject
    rw [get?_fieldWriters, hhs textField (by decide)]
    rcases htext with ⟨hnone, hempty⟩ | hsome
    · rw [hnone, ← hy, hempty]
      rfl
    · rw [hsome, ← hy]
      rfl
  · rw [hadds.attributes, Assoc.get?_nil, Option.or_none]
    split
    · rfl
    · next hd =>
      by_contra hne
      obtain ⟨p, hp, ha, rfl⟩ := hdeclared name (Option.isSome_iff_ne_none.mpr (Ne.symm hne))
      exact hd (List.any_eq_true.mpr ⟨p, hp, by simp [ha]⟩)
  · rw [hchildren]
    exact hys

/-- An element that follows its class is written into the same tree again. -/
theorem readObject_conforms {ks : List Child} (h : m.Carries m') (hc : c ∈ m.walk)
    (hk : ∀ k ∈ ks, Readable m m' k) (hks : ks.map Child.element = e.children)
    (hconf : Conforms m m' c e) : ReadsBack m' c e (readObject m' c e ks) := by
  obtain ⟨hdeclared, htext, htail, hfollows⟩ := hconf
  obtain ⟨hrt, hre⟩ := h.reserved c hc
  have hstart : ∀ q ∈ (m'.decl c).properties, Assoc.get? (m'.prop q).field ([] : Fields) = none :=
    fun _ _ => rfl
  obtain ⟨gs, hrun, hback⟩ := readProperties_follows (e := e) (h.stands c hc) (h.nodup c hc)
    (fun q hq => Instance.wrappedField_of_mem (h.nodup c hc) hq)
    (fun p hp => h.types p (Model.mem_walkProperties hc hp)) hk (hks ▸ hfollows) hstart
  rw [hks] at hback
  have hnone {f : String} (hf : f ∉ m'.fields c) : Assoc.get? f gs = none := hback.beside f hf
  have hread : readObject m' c e ks =
      if ks.isEmpty && holdsText m' c && Text.trim e.text ≠ "" then
        .ok (.object c (Assoc.put textField (.text e.text) gs))
      else .ok (.object c gs) := by
    unfold readObject
    rw [Instance.fresh_of_not_wrapper (h.isWrapper c hc), hrun]
    rfl
  rcases htext with hempty | ⟨htrim, hall⟩
  · refine ⟨gs, ?_, hnone hre, fun hs hhs => ?_⟩
    · have htrim : Text.trim "" = "" := by decide
      rw [hread, hempty, htrim]
      simp
    · exact hback.writeObject h hc hdeclared htail (.refl _ _) (Or.inl ⟨hnone hrt, hempty⟩) hhs
  · -- A class that has attributes alone has no children.
    have hnil : ks = [] := List.map_eq_nil_iff.mp (hks.trans (hfollows.eq_nil hall))
    have hholds : holdsText m' c = true := by
      rw [holdsText_eq ((h.stands c hc).imp fun _ _ hp => hp.isAttribute_eq)]
      exact List.all_eq_true.mpr hall
    refine ⟨Assoc.put textField (.text e.text) gs, ?_, ?_, fun hs hhs => ?_⟩
    · rw [hread, hnil, hholds, if_pos (by simpa using htrim)]
    · rw [Assoc.get?_put_of_ne (by decide), hnone hre]
    · exact hback.writeObject h hc hdeclared htail (sameBeside_put _ _ _)
        (Or.inr (Assoc.get?_put_self _ _ _)) hhs

mutual

theorem reader_conforms (h : m.Carries m') : ∀ (e : Xml.Element) {c : ClassId}, c ∈ m.walk →
    Conforms m m' c e → ReadsBack m' c e (reader m' e c)
  | ⟨_, _, _, _, children⟩, _, hc, hconf =>
    readObject_conforms h hc (childReaders_readable h children) (element_childReaders children)
      hconf

theorem childReaders_readable (h : m.Carries m') : ∀ es : List Xml.Element,
    ∀ k ∈ childReaders m' es, Readable m m' k
  | [], _, hk => nomatch hk
  | e :: es, k, hk => by
    rcases List.mem_cons.mp hk with rfl | hk
    · exact fun d hd hconf => reader_conforms h e hd hconf
    · exact childReaders_readable h es k hk

end

theorem marshalElement_conforms (h : m.Carries m') (hroot : rootClass m' none e.tag = .ok c)
    (hc : c ∈ m.walk) (hconf : Conforms m m' c e) :
    ∃ d y, unmarshalElement m' none e = .ok d ∧ marshalElement m' d = .ok y ∧ y.SameTree e := by
  obtain ⟨fs, hread, -, hwrite⟩ := reader_conforms h e hc hconf
  obtain ⟨y, hy, hsame⟩ := hwrite fs (.refl _ _)
  refine ⟨.object c fs, y, ?_, ?_, hsame⟩
  · rw [unmarshalElement, hroot, ← hread]
    rfl
  · rw [marshalElement, (bound_of_rootClass hroot).2, hy]

end Binding
end Enfold
