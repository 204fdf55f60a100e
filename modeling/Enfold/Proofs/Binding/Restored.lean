import Enfold.Proofs.Binding.Kept
import Enfold.Proofs.Binding.Untouched

/-! # Children that come back property by property

Where no two values of an object share a field, whatever is read can be written again, be it an
object of a class, of a wrapper, or a child that is kept as it is. The children of an object come
back property by property, each under its own tag. The exception is an element that is read for its
text: it comes back under the name of the property that has taken it.
-/

namespace Enfold

structure Property.IsForRuns (x : Property) : Prop where
  name : x.name = textRunsName
  field : x.field = textRunsName
  kind : x.kind = .mixed
  synthetic : x.synthetic = true
  isAttribute : x.isAttribute = false
  reference : x.reference = none

/-- A wrapper holds the items of one property, and in mixed content the text between them. -/
structure HoldsItems (m : Model) (w : ClassId) (p : PropertyId) : Prop where
  isAttribute : (m.prop p).isAttribute = false
  reference : (m.prop p).reference = none
  synthetic : (m.prop p).synthetic = false
  multiplicity : (m.prop p).multiplicity = .repeated
  alone : (m.prop p).kind ≠ .mixed → (m.decl w).properties = [p]
  mixed : (m.prop p).kind = .mixed →
    ∃ x, (m.decl w).properties = [p, x] ∧ (m.prop x).IsForRuns

/-- All wrappers hold items, and references lead to them alone. -/
structure Model.WrapsItems (m : Model) : Prop where
  wrapper : ∀ w ∈ m.walk, (m.decl w).isWrapper = true → ∃ p, HoldsItems m w p
  reference : ∀ q ∈ m.walkProperties, ∀ w ∈ (m.prop q).reference,
    w ∈ m.walk ∧ (m.decl w).isWrapper = true

/-- All that an object holds has fields of its own. -/
structure Model.SharesNoField (m : Model) : Prop where
  nodup : ∀ c ∈ m.walk, (m.fields c).Nodup
  reserved : ∀ c ∈ m.walk, textField ∉ m.fields c ∧ elementField ∉ m.fields c
  runs : ∀ c ∈ m.walk, (m.decl c).isWrapper = false → Binding.Mixes m c →
    textRunsName ∉ m.fields c

instance (m : Model) : Decidable m.SharesNoField :=
  decidable_of_iff ((∀ c ∈ m.walk, (m.fields c).Nodup) ∧
      (∀ c ∈ m.walk, textField ∉ m.fields c ∧ elementField ∉ m.fields c) ∧
      ∀ c ∈ m.walk, (m.decl c).isWrapper = false → Binding.Mixes m c →
        textRunsName ∉ m.fields c)
    ⟨fun ⟨h₁, h₂, h₃⟩ => ⟨h₁, h₂, h₃⟩, fun h => ⟨h.1, h.2, h.3⟩⟩

namespace Binding

variable {m : Model} {c d w : ClassId} {x : Property} {p q : PropertyId} {fs gs hs : Fields}
  {xs vs : List Datum} {e k y z parent : Xml.Element} {es es' es'' ys zs : List Xml.Element}
  {s t u : Progress} {ps qs l : List PropertyId} {ks rest taken : List Child} {text : String}

def takenCount (x : Property) (es : List Xml.Element) : Nat :=
  if x.kind = .mixed then es.length
  else if x.multiplicity = .repeated then (es.takeWhile fun e => accepts x e.tag).length
  else if es.head?.any fun e => accepts x e.tag then 1 else 0

mutual

/-- What comes back of an element that is read as an object of a class. -/
inductive Restored (m : Model) : ClassId → Xml.Element → Xml.Element → Prop
  | intro {c : ClassId} {e y : Xml.Element}
      (children : RestoredAll m (itemProperties m c) e.children y.children) : Restored m c e y

/-- What comes back of children that some properties take one after another. -/
inductive RestoredAll (m : Model) : List PropertyId → List Xml.Element → List Xml.Element → Prop
  | nil {es : List Xml.Element} : RestoredAll m [] es []
  | block {p : PropertyId} {ps : List PropertyId} {es ys zs : List Xml.Element}
      (block : RestoredBlock m (m.prop p) (es.take (takenCount (m.prop p) es)) ys)
      (rest : RestoredAll m ps (es.drop (takenCount (m.prop p) es)) zs) :
      RestoredAll m (p :: ps) es (ys ++ zs)
  | runs {p : PropertyId} {ps : List PropertyId} {es ys zs : List Xml.Element}
      (synthetic : (m.prop p).synthetic = true) (rest : RestoredAll m ps es zs) :
      RestoredAll m (p :: ps) es (ys ++ zs)

/-- What comes back of the children that a property has taken, one for one. -/
inductive RestoredBlock (m : Model) : Property → List Xml.Element → List Xml.Element → Prop
  | nil {x : Property} : RestoredBlock m x [] []
  | cons {x : Property} {k y : Xml.Element} {es ys : List Xml.Element}
      (head : RestoredAs m x k y) (tail : RestoredBlock m x es ys) :
      RestoredBlock m x (k :: es) (y :: ys)

inductive RestoredAs (m : Model) : Property → Xml.Element → Xml.Element → Prop
  | whole {x : Property} {k y : Xml.Element}
      (kind : x.kind = .any ∨ x.kind = .mixed ∧ m.classOfType? (typeFor x k.tag) = none)
      (tag : y.tag = k.tag) : RestoredAs m x k y
  | text {x : Property} {k y : Xml.Element} (kind : x.kind ≠ .any ∧ x.kind ≠ .mixed)
      (type : m.classOfType? (typeFor x k.tag) = none) (tag : y.tag = x.name) :
      RestoredAs m x k y
  | object {x : Property} {k y : Xml.Element} {d : ClassId} (kind : x.kind ≠ .any)
      (type : m.classOfType? (typeFor x k.tag) = some d) (tag : y.tag = k.tag)
      (restored : Restored m d k y) : RestoredAs m x k y

end

theorem RestoredAs.withTail (h : RestoredAs m x k y) (tail : String) :
    RestoredAs m x k { y with tail } := by
  cases h with
  | whole kind tag => exact .whole kind tag
  | text kind type tag => exact .text kind type tag
  | object kind type tag restored =>
    obtain ⟨children⟩ := restored
    exact .object kind type tag ⟨children⟩

theorem restoredBlock_iff : RestoredBlock m x es ys ↔ List.Forall₂ (RestoredAs m x) es ys := by
  constructor
  · intro h
    induction es generalizing ys with
    | nil =>
      cases h
      exact .nil
    | cons k es ih =>
      obtain - | ⟨head, tail⟩ := h
      exact .cons head (ih tail)
  · intro h
    induction h with
    | nil => exact .nil
    | cons head _ ih => exact .cons head ih

/-- Elements of a group keep their tags exactly if their types are classes. -/
theorem RestoredBlock.map_tag_eq_iff (h : RestoredBlock m x es ys) (hx : x.kind = .reference) :
    ys.map Xml.Element.tag = es.map Xml.Element.tag ↔
      ∀ k ∈ es, k.tag = x.name ∨ (m.classOfType? (typeFor x k.tag)).isSome := by
  have hone {k y : Xml.Element} (h : RestoredAs m x k y) : y.tag = k.tag ↔
      k.tag = x.name ∨ (m.classOfType? (typeFor x k.tag)).isSome := by
    cases h with
    | whole kind tag => simp [hx] at kind
    | text kind type tag => simp [type, tag, eq_comm]
    | object kind type tag restored => simp [type, tag]
  rw [restoredBlock_iff] at h
  induction h with
  | nil => simp
  | cons head _ ih =>
    simp only [List.map_cons, List.cons.injEq, hone head, ih, List.forall_mem_cons]

/-! ### Values -/

def ReadsRestored (m : Model) (c : ClassId) (e : Xml.Element) (r : Except BindingError Datum) :
    Prop :=
  ∀ v, r = .ok v → ∃ fs, v = .object c fs ∧ Assoc.get? elementField fs = none ∧
    ∀ gs tag, SameBeside elementField fs gs →
      ∃ y, writeObject m c (fieldWriters m gs) tag = .ok y ∧ y.tag = tag ∧ Restored m c e y

def ChildRestored (m : Model) (k : Child) : Prop :=
  ∀ d ∈ m.walk, ReadsRestored m d k.element (k.read d)

theorem readValue_restored {k : Child} {v : Datum} (hk : ChildRestored m k)
    (h : readValue m x k = .ok v) : v.isNull = false ∧
      ∃ y, (writer m v).value x = .ok y ∧ RestoredAs m x k.element y := by
  unfold readValue at h
  split at h
  · next hany =>
    cases h
    exact ⟨rfl, _, rfl, .whole (Or.inl hany) rfl⟩
  · next hany =>
    split at h
    · next htype =>
      cases h
      split
      · next hmixed => exact ⟨rfl, _, rfl, .whole (Or.inr ⟨hmixed, htype⟩) rfl⟩
      · next hmixed => exact ⟨rfl, _, rfl, .text ⟨hany, hmixed⟩ htype rfl⟩
    · next d htype =>
      obtain ⟨v', hread, h⟩ := exceptBind_eq_ok.mp h
      obtain ⟨fs, rfl, hnone, hwrite⟩ := hk d (mem_walk_of_classOfType? htype) v' hread
      simp only [Assoc.contains, hnone] at h
      cases h
      obtain ⟨y, hy, htag, hrestored⟩ := hwrite _ k.element.tag
        (sameBeside_put elementField (.text k.element.tag) fs)
      refine ⟨rfl, y, ?_, .object hany htype htag hrestored⟩
      change (tagOf _ x).bind _ = _
      rw [tagOf_put]
      exact hy

theorem writtenAs_restored (hk : ∀ k ∈ ks, ChildRestored m k) (h : ReadAs m x ks vs) :
    ∃ zs, WrittenAs m x vs zs ∧ RestoredBlock m x (ks.map Child.element) zs := by
  have each : List.Forall₂ (fun v k => ∃ z, (writer m v).value x = .ok z ∧
      RestoredAs m x k.element z) vs ks := by
    induction h with
    | nil => exact .nil
    | cons hv _ ih =>
      exact .cons (readValue_restored (hk _ List.mem_cons_self) hv).2
        (ih fun k hks => hk k (List.mem_cons_of_mem _ hks))
  obtain ⟨zs, hzs, hall⟩ := exists_writtenAs each
  exact ⟨zs, hzs, restoredBlock_iff.mpr (List.forall₂_map_left_iff.mpr hall)⟩

theorem RestoredBlock.withTails (h : RestoredBlock m x es zs) (runs : List String) :
    RestoredBlock m x es (withTails zs runs) :=
  restoredBlock_iff.mpr
    (forall₂_withTails (fun _ _ tail h => h.withTail tail) (restoredBlock_iff.mp h) runs)

/-! ### Places -/

def placeItems (m : Model) (q : PropertyId) : List PropertyId :=
  if (m.prop q).isAttribute then [] else
    match (m.prop q).reference with
    | some w => (m.decl w).properties.filter fun p => !(m.prop p).synthetic
    | none => [q]

theorem itemProperties_eq (m : Model) (c : ClassId) :
    itemProperties m c = (m.decl c).properties.flatMap (placeItems m) := rfl

theorem placeItems_own (ha : (m.prop q).isAttribute = false) (hr : (m.prop q).reference = none) :
    placeItems m q = [q] := by
  simp [placeItems, ha, hr]

/-- Some properties have taken the children `es` up to `es'`, which come back. -/
structure Gets (m : Model) (ps : List PropertyId) (es es' : List Xml.Element)
    (parent y : Xml.Element) : Prop where
  tag : y.tag = parent.tag
  children : ∃ zs, y.children = parent.children ++ zs ∧
    ∀ qs rest, RestoredAll m qs es' rest → RestoredAll m (ps ++ qs) es (zs ++ rest)

theorem Gets.nothing (es : List Xml.Element) (parent : Xml.Element) :
    Gets m [] es es parent parent :=
  ⟨rfl, [], (List.append_nil _).symm, fun _ _ h => h⟩

theorem Gets.trans (h : Gets m ps es es' parent y) (h' : Gets m qs es' es'' y z) :
    Gets m (ps ++ qs) es es'' parent z := by
  obtain ⟨zs, hzs, hall⟩ := h.children
  obtain ⟨zs', hzs', hall'⟩ := h'.children
  refine ⟨h'.tag.trans h.tag, zs ++ zs', by rw [hzs', hzs, List.append_assoc],
    fun qs' rest hr => ?_⟩
  rw [List.append_assoc, List.append_assoc]
  exact hall _ _ (hall' _ _ hr)

theorem Gets.block (hcount : takenCount (m.prop p) (es ++ es') = es.length)
    (h : RestoredBlock m (m.prop p) es zs) (htag : y.tag = parent.tag)
    (hy : y.children = parent.children ++ zs) : Gets m [p] (es ++ es') es' parent y := by
  refine ⟨htag, zs, hy, fun qs rest hrest => .block ?_ ?_⟩
  · rwa [hcount, List.take_left]
  · rwa [hcount, List.drop_left]

theorem Gets.runs (hs : (m.prop p).synthetic = true) (htag : y.tag = parent.tag)
    (hy : y.children = parent.children ++ zs) : Gets m [p] es es parent y :=
  ⟨htag, zs, hy, fun _ _ hrest => .runs hs hrest⟩

theorem takenCount_of_mixed (hx : x.kind = .mixed) (es : List Xml.Element) :
    takenCount x es = es.length := by
  rw [takenCount, if_pos hx]

theorem takenCount_of_repeated (hk : x.kind ≠ .mixed) (hr : x.multiplicity = .repeated)
    (htaken : ∀ k ∈ taken, accepts x k.element.tag = true)
    (hstop : ∀ k ∈ rest.head?, accepts x k.element.tag = false) :
    takenCount x (taken.map Child.element ++ rest.map Child.element) =
      (taken.map Child.element).length := by
  have hall : ∀ e ∈ taken.map Child.element, accepts x e.tag = true := by simpa using htaken
  rw [takenCount, if_neg hk, if_pos hr, List.takeWhile_append_of_pos hall]
  cases rest with
  | nil => simp
  | cons k rest => simp [hstop k rfl]

/-- Where reading a place has led, which is written as what comes back. -/
structure PlaceRestored (m : Model) (c : ClassId) (q : PropertyId) (s t : Progress) : Prop where
  beside : SameBeside (m.prop q).field s.1 t.1
  writes : ∀ hs parent, Assoc.get? (m.prop q).field hs = Assoc.get? (m.prop q).field t.1 →
    (Mixes m c → Assoc.get? textRunsName hs = none) →
      ∃ y, writeProperty m (fieldWriters m hs) parent q = .ok y ∧
        Gets m (placeItems m q) (s.2.map Child.element) (t.2.map Child.element) parent y

theorem placeRestored_of_attribute (ha : (m.prop q).isAttribute = true)
    (hnone : Assoc.get? (m.prop q).field s.1 = none) (h : readProperty m c e s q = .ok t) :
    PlaceRestored m c q s t := by
  obtain ⟨fs, ks⟩ := s
  obtain ⟨gs, hread, hback⟩ := readProperty_attribute (c := c) (e := e) ha rfl hnone
  rw [hread] at h
  cases h
  refine ⟨hback.beside, fun hs parent hhs _ => ?_⟩
  obtain ⟨y, hy, hadds⟩ := hback.writes hs parent hhs
  obtain ⟨ys, hys, hchildren⟩ := hadds.children
  cases hys
  refine ⟨y, hy, hadds.tag, [], hchildren, fun _ _ h => ?_⟩
  rwa [placeItems, if_pos ha]

theorem placeItems_wrapped (hi : HoldsItems m w p) (ha : (m.prop q).isAttribute = false)
    (hr : (m.prop q).reference = some w) : placeItems m q = [p] := by
  rw [placeItems, ha, hr]
  by_cases hk : (m.prop p).kind = .mixed
  · obtain ⟨x, hw, hx⟩ := hi.mixed hk
    simp [hw, hi.synthetic, hx.synthetic]
  · simp [hi.alone hk, hi.synthetic]

/-- Runs of text are found by their name, unless the items have it. -/
theorem propertyNamed?_runs (hi : HoldsItems m w p) (hk : (m.prop p).kind = .mixed) :
    (m.propertyNamed? w textRunsName).isSome = true ∧
      ∀ q, m.propertyNamed? w textRunsName = some q →
        (m.prop q).field = textRunsName ∨ (m.prop q).field = (m.prop p).field := by
  obtain ⟨x, hw, hx⟩ := hi.mixed hk
  constructor
  · rw [Model.propertyNamed?, List.find?_isSome, hw]
    exact ⟨x, by simp, by simp [hx.name]⟩
  · intro q hq
    have hmem : q ∈ [p, x] := hw ▸ (mem_of_propertyNamed? hq).1
    rcases List.mem_cons.mp hmem with rfl | hmem
    · exact Or.inr rfl
    · obtain rfl := List.mem_singleton.mp hmem
      exact Or.inl hx.field

theorem readMixed_of_wrapper (hi : HoldsItems m w p) (hk : (m.prop p).kind = .mixed)
    (hne : (m.prop p).field ≠ textRunsName)
    (h : readMixed m w (m.prop p) text (Instance.fresh m w) ks = .ok t) :
    t.2 = [] ∧ ∃ vs, Instance.Contains (m.prop p).field t.1 vs ∧ ReadAs m (m.prop p) ks vs ∧
      HoldsRuns t.1 (text :: ks.map fun k => k.element.tail) := by
  obtain ⟨hsome, hfield⟩ := propertyNamed?_runs hi hk
  obtain ⟨hrest, vs, hvs, hread, hruns, -⟩ := readMixed_ok (fun _ => hne) hfield
    (Instance.has_fresh _ _ _) (fun _ => Instance.has_fresh _ _ _) h
  exact ⟨hrest, vs, hvs, hread, hruns hsome⟩

theorem readWrapped_of_mixed (hi : HoldsItems m w p) (hk : (m.prop p).kind = .mixed) :
    readWrapped m w text (m.decl w).properties s = readMixed m w (m.prop p) text s.1 s.2 := by
  obtain ⟨x, hw, -⟩ := hi.mixed hk
  rw [hw, readWrapped, hi.synthetic, if_neg Bool.false_ne_true, if_pos hk]

theorem writeWrapped_of_mixed {fields : FieldWriters} (hi : HoldsItems m w p)
    (hk : (m.prop p).kind = .mixed) :
    (m.decl w).properties.foldlM (writeWrappedProperty m fields) parent =
      writeMixed fields (m.prop p) parent := by
  obtain ⟨x, hw, hx⟩ := hi.mixed hk
  simp only [hw, List.foldlM_cons, List.foldlM_nil, writeWrappedProperty, hi.synthetic,
    hx.synthetic, hk, Bool.false_eq_true, if_false, if_true]
  cases writeMixed fields (m.prop p) parent <;> rfl

theorem writeMixed_restored {runs : List String} (hkind : (m.prop p).kind = .mixed)
    (hk : ∀ k ∈ ks, ChildRestored m k) (hread : ReadAs m (m.prop p) ks vs)
    (hs : Instance.Has (m.prop p).field fs vs) (hr : HoldsRuns fs runs) (parent : Xml.Element) :
    ∃ y, writeMixed (fieldWriters m fs) (m.prop p) parent = .ok y ∧
      Gets m [p] (ks.map Child.element) [] parent y := by
  obtain ⟨zs, hzs, hblock⟩ := writtenAs_restored hk hread
  refine ⟨_, (writeMixed_eq_ok hs hr).mpr ⟨zs, hzs, rfl⟩, ?_⟩
  rw [← List.append_nil (ks.map Child.element)]
  refine .block ?_ (hblock.withTails runs.tail) rfl rfl
  rw [takenCount_of_mixed hkind, List.append_nil]

theorem writeItems_restored (hkind : (m.prop p).kind ≠ .mixed)
    (hrep : (m.prop p).multiplicity = .repeated)
    (htaken : ∀ k ∈ taken, accepts (m.prop p) k.element.tag = true)
    (hstop : ∀ k ∈ rest.head?, accepts (m.prop p) k.element.tag = false)
    (hk : ∀ k ∈ taken, ChildRestored m k) (hread : ReadAs m (m.prop p) taken vs)
    (parent : Xml.Element) : ∃ y, writeItems (m.prop p) parent (valueWriters m vs) = .ok y ∧
      Gets m [p] ((taken ++ rest).map Child.element) (rest.map Child.element) parent y := by
  obtain ⟨zs, hzs, hblock⟩ := writtenAs_restored hk hread
  refine ⟨_, writeItems_eq_ok.mpr ⟨zs, hzs, rfl⟩, ?_⟩
  rw [List.map_append]
  exact .block (takenCount_of_repeated hkind hrep htaken hstop) hblock rfl rfl

theorem readWrapped_restored (hi : HoldsItems m w p) (hn : (m.fields w).Nodup)
    (hk : ∀ k ∈ ks, ChildRestored m k)
    (h : readWrapped m w text (m.decl w).properties (Instance.fresh m w, ks) = .ok u)
    (parent : Xml.Element) : ∃ y,
      (m.decl w).properties.foldlM (writeWrappedProperty m (fieldWriters m u.1)) parent = .ok y ∧
        Gets m [p] (ks.map Child.element) (u.2.map Child.element) parent y := by
  by_cases hkind : (m.prop p).kind = .mixed
  · obtain ⟨x, hw, hx⟩ := hi.mixed hkind
    have hne : (m.prop p).field ≠ textRunsName := by
      simpa [Model.fields, hw, hx.field] using hn
    rw [readWrapped_of_mixed hi hkind] at h
    obtain ⟨hrest, vs, hvs, hread, hruns⟩ := readMixed_of_wrapper hi hkind hne h
    obtain ⟨y, hy, hgets⟩ := writeMixed_restored hkind hk hread hvs.has hruns parent
    exact ⟨y, (writeWrapped_of_mixed hi hkind).trans hy, by rwa [hrest]⟩
  · rw [hi.alone hkind, readWrapped, hi.synthetic, if_neg Bool.false_ne_true, if_neg hkind] at h
    obtain ⟨gs, he, h⟩ := exceptBind_eq_ok.mp h
    obtain ⟨⟨us, rest⟩, hu, h⟩ := exceptBind_eq_ok.mp h
    cases h
    obtain ⟨taken, vs, rfl, htaken, hstop, hvs, -, hread⟩ :=
      readItems_ok (Instance.has_of_ensureContainer (Instance.has_fresh _ _ _) he).1 hu
    obtain ⟨y, hy, hgets⟩ := writeItems_restored hkind hi.multiplicity htaken hstop
      (fun k hkt => hk k (List.mem_append_left _ hkt)) hread parent
    refine ⟨y, ?_, hgets⟩
    have hwrite : writeWrappedProperty m (fieldWriters m us) parent p = .ok y := by
      unfold writeWrappedProperty
      dsimp only
      rw [hi.synthetic, if_neg hkind, itemsOf_has hvs]
      exact hy
    rw [hi.alone hkind, List.foldlM_cons, hwrite]
    rfl

theorem propertyNamed?_of_readMixed (hruns : textRunsName ∉ m.fields c)
    (h : readMixed m c x text fs ks = .ok t) : m.propertyNamed? c textRunsName = none := by
  refine Option.eq_none_iff_forall_ne_some.mpr fun q hq => hruns ?_
  obtain ⟨us, -, h⟩ := exceptBind_eq_ok.mp h
  rw [hq] at h
  obtain ⟨us', -, h⟩ := exceptBind_eq_ok.mp h
  obtain ⟨vs, hv, -⟩ := exceptBind_eq_ok.mp h
  exact Instance.mem_fields_of_append hv

section Elements

variable (ha : (m.prop q).isAttribute = false) (hk : ∀ k ∈ s.2, ChildRestored m k)
include ha hk

theorem placeRestored_of_wrapper (hm : m.WrapsItems) (hf : m.SharesNoField) (hc : c ∈ m.walk)
    (hq : q ∈ (m.decl c).properties) (hr : (m.prop q).reference = some w)
    (h : readProperty m c e s q = .ok t) : PlaceRestored m c q s t := by
  obtain ⟨fs, ks⟩ := s
  obtain ⟨hw, hwrapper⟩ := hm.reference q (Model.mem_walkProperties hc hq) w hr
  obtain ⟨p, hi⟩ := hm.wrapper w hw hwrapper
  obtain ⟨u, hu, rfl⟩ := readProperty_of_reference ha hr h
  refine ⟨sameBeside_put _ _ _, fun hs parent hhs _ => ?_⟩
  rw [Assoc.get?_put_self] at hhs
  obtain ⟨y, hy, hgets⟩ := readWrapped_restored hi (hf.nodup w hw) hk hu parent
  rw [placeItems_wrapped hi ha hr]
  refine ⟨y, ?_, hgets⟩
  rw [writeProperty_of_reference ha (by rw [hr]; rfl) hhs]
  exact hy

variable (hr : (m.prop q).reference = none)
include hr

theorem placeRestored_of_mixed (hruns : textRunsName ∉ m.fields c)
    (hq : q ∈ (m.decl c).properties) (hmixed : (m.prop q).kind = .mixed)
    (hnone : Assoc.get? (m.prop q).field s.1 = none) (h : readProperty m c e s q = .ok t) :
    PlaceRestored m c q s t := by
  rw [readProperty_of_mixed ha hr hmixed] at h
  have hnamed := propertyNamed?_of_readMixed hruns h
  obtain ⟨hrest, vs, hvs, hread, -, hb⟩ := readMixed_ok (by simp [hnamed]) (by simp [hnamed])
    (Or.inr ⟨hnone, rfl⟩) (by simp [hnamed]) h
  refine ⟨fun f hf => hb f hf (by simp [hnamed]), fun hs parent hhs hnoruns => ?_⟩
  have hitems := hvs.congr hhs
  have hempty : HoldsRuns hs [] := Or.inr ⟨hnoruns ⟨q, hq, hmixed⟩, rfl⟩
  obtain ⟨y, hy, hgets⟩ := writeMixed_restored hmixed hk hread hitems.has hempty parent
  rw [placeItems_own ha hr, hrest]
  refine ⟨y, ?_, hgets⟩
  rw [writeProperty_of_mixed ha hr hmixed hitems]
  exact hy

theorem placeRestored_of_repeated (hmixed : (m.prop q).kind ≠ .mixed)
    (hrep : (m.prop q).multiplicity = .repeated) (hhas : Instance.Has (m.prop q).field s.1 [])
    (h : readProperty m c e s q = .ok t) : PlaceRestored m c q s t := by
  obtain ⟨fs, ks⟩ := s
  have hplain : Plain (m.prop q) := ⟨ha, hr, hmixed⟩
  rw [readProperty_of_repeated hplain hrep] at h
  obtain ⟨taken, vs, hks, htaken, hstop, hvs, hb, hread⟩ := readItems_ok hhas h
  refine ⟨hb, fun hs parent hhs _ => ?_⟩
  obtain ⟨y, hy, hgets⟩ := writeItems_restored hmixed hrep htaken hstop
    (fun k hkt => hk k (hks ▸ List.mem_append_left _ hkt)) hread parent
  rw [placeItems_own ha hr, hks]
  refine ⟨y, ?_, hgets⟩
  rw [writeProperty_of_repeated hplain hrep (hvs.congr hhs)]
  exact hy

theorem placeRestored_of_single (hmixed : (m.prop q).kind ≠ .mixed)
    (hsingle : (m.prop q).multiplicity ≠ .repeated)
    (hnone : Assoc.get? (m.prop q).field s.1 = none) (h : readProperty m c e s q = .ok t) :
    PlaceRestored m c q s t := by
  obtain ⟨fs, ks⟩ := s
  have hplain : Plain (m.prop q) := ⟨ha, hr, hmixed⟩
  have hmissed (hcount : takenCount (m.prop q) (ks.map Child.element) =
      ([] : List Xml.Element).length) : PlaceRestored m c q (fs, ks) (fs, ks) := by
    refine ⟨.refl _ _, fun hs parent hhs _ =>
      ⟨parent, writeProperty_of_absent (hhs.trans hnone), ?_⟩⟩
    rw [placeItems_own ha hr]
    exact .block hcount .nil rfl (List.append_nil _).symm
  cases ks with
  | nil =>
    rw [readProperty_nil hplain hsingle] at h
    cases h
    exact hmissed (by simp [takenCount, hmixed, hsingle])
  | cons k ks =>
    rw [readProperty_cons hplain hsingle] at h
    split at h
    · next hacc =>
      obtain ⟨v, hv, rfl⟩ := exceptMap_eq_ok.mp h
      obtain ⟨hnull, z, hz, hrestored⟩ := readValue_restored (hk k List.mem_cons_self) hv
      have hcount : takenCount (m.prop q) ([k.element] ++ ks.map Child.element) =
          [k.element].length := by
        simp [takenCount, hmixed, hsingle, hacc]
      refine ⟨sameBeside_put _ _ _, fun hs parent hhs _ => ⟨addChild parent z, ?_, ?_⟩⟩
      · rw [Assoc.get?_put_self] at hhs
        rw [hplain.writeProperty hhs hnull, if_neg hsingle, hz]
        rfl
      · rw [placeItems_own ha hr]
        exact .block hcount (.cons hrestored .nil) rfl rfl
    · next hacc =>
      cases h
      exact hmissed (by simp [takenCount, hmixed, hsingle, hacc])

end Elements

/-- The step of reading: what one place takes comes back. -/
theorem placeRestored_of_read (hm : m.WrapsItems) (hf : m.SharesNoField) (hc : c ∈ m.walk)
    (hcw : (m.decl c).isWrapper = false) (hq : q ∈ (m.decl c).properties)
    (hk : ∀ k ∈ s.2, ChildRestored m k) (hnone : Assoc.get? (m.prop q).field s.1 = none)
    (h : readProperty m c e s q = .ok t) : PlaceRestored m c q s t := by
  cases ha : (m.prop q).isAttribute with
  | true => exact placeRestored_of_attribute ha hnone h
  | false =>
    cases hr : (m.prop q).reference with
    | some w => exact placeRestored_of_wrapper ha hk hm hf hc hq hr h
    | none =>
      by_cases hmixed : (m.prop q).kind = .mixed
      · exact placeRestored_of_mixed ha hk hr (hf.runs c hc hcw ⟨q, hq, hmixed⟩) hq hmixed hnone h
      · by_cases hrep : (m.prop q).multiplicity = .repeated
        · exact placeRestored_of_repeated ha hk hr hmixed hrep (Or.inr ⟨hnone, rfl⟩) h
        · exact placeRestored_of_single ha hk hr hmixed hrep hnone h

/-! ### Objects -/

structure PlacesRestored (m : Model) (c : ClassId) (l : List PropertyId) (s t : Progress) :
    Prop where
  beside : ∀ f, f ∉ l.map (fun q => (m.prop q).field) → Assoc.get? f t.1 = Assoc.get? f s.1
  writes : ∀ hs parent,
    (∀ q ∈ l, Assoc.get? (m.prop q).field hs = Assoc.get? (m.prop q).field t.1) →
    (Mixes m c → Assoc.get? textRunsName hs = none) →
      ∃ y, l.foldlM (writeProperty m (fieldWriters m hs)) parent = .ok y ∧
        Gets m (l.flatMap (placeItems m)) (s.2.map Child.element) (t.2.map Child.element) parent y

theorem PlacesRestored.nil (s : Progress) : PlacesRestored m c [] s s :=
  ⟨fun _ _ => rfl, fun _ parent _ _ => ⟨parent, rfl, .nothing _ parent⟩⟩

theorem PlaceRestored.cons (h : PlaceRestored m c q s t) (h' : PlacesRestored m c l t u)
    (hq : (m.prop q).field ∉ l.map fun q => (m.prop q).field) :
    PlacesRestored m c (q :: l) s u := by
  refine ⟨fun f hf => ?_, fun hs parent hhs hruns => ?_⟩
  · rw [List.map_cons, List.mem_cons, not_or] at hf
    rw [h'.beside f hf.2, h.beside f hf.1]
  · obtain ⟨y, hy, hgets⟩ :=
      h.writes hs parent ((hhs q List.mem_cons_self).trans (h'.beside _ hq)) hruns
    obtain ⟨z, hz, hgets'⟩ :=
      h'.writes hs y (fun q' hq' => hhs q' (List.mem_cons_of_mem q hq')) hruns
    refine ⟨z, ?_, hgets.trans hgets'⟩
    rw [List.foldlM_cons, hy]
    exact hz

/-- The run of reading: what the places of a class take comes back. -/
theorem placesRestored_of_read (hm : m.WrapsItems) (hf : m.SharesNoField) (hc : c ∈ m.walk)
    (hcw : (m.decl c).isWrapper = false) (hl : ∀ q ∈ l, q ∈ (m.decl c).properties)
    (hn : (l.map fun q => (m.prop q).field).Nodup) (hk : ∀ k ∈ s.2, ChildRestored m k)
    (hnone : ∀ q ∈ l, Assoc.get? (m.prop q).field s.1 = none)
    (h : l.foldlM (readProperty m c e) s = .ok t) : PlacesRestored m c l s t := by
  induction l generalizing s with
  | nil =>
    cases h
    exact .nil _
  | cons q l ih =>
    rw [List.foldlM_cons] at h
    obtain ⟨u, hu, h⟩ := exceptBind_eq_ok.mp h
    obtain ⟨hq, hn⟩ := List.nodup_cons.mp hn
    have later {q'} (hq' : q' ∈ l) := List.mem_cons_of_mem q hq'
    have hplace := placeRestored_of_read hm hf hc hcw (hl q List.mem_cons_self) hk
      (hnone q List.mem_cons_self) hu
    refine hplace.cons (ih (fun q' hq' => hl q' (later hq')) hn ?_ ?_ h) hq
    · exact fun k hku => hk k ((readProperty_leaves hu).subset hku)
    · intro q' hq'
      rw [hplace.beside, hnone q' (later hq')]
      exact fun hqq => hq (List.mem_map.mpr ⟨q', hq', hqq⟩)

/-- The values of an object are written as what comes back of its children. -/
def FieldsRestored (m : Model) (c : ClassId) (es : List Xml.Element) (gs : Fields) : Prop :=
  ∀ hs parent, (∀ f, f ≠ textField → f ≠ elementField → Assoc.get? f hs = Assoc.get? f gs) →
    ∃ y zs, (m.decl c).properties.foldlM (writeProperty m (fieldWriters m hs)) parent = .ok y ∧
      y.tag = parent.tag ∧ y.children = parent.children ++ zs ∧
        RestoredAll m (itemProperties m c) es zs

theorem Gets.restoredAll (h : Gets m ps es es' parent y) :
    ∃ zs, y.children = parent.children ++ zs ∧ RestoredAll m ps es zs := by
  obtain ⟨zs, hzs, hall⟩ := h.children
  refine ⟨zs, hzs, ?_⟩
  simpa using hall [] [] .nil

theorem PlacesRestored.fieldsRestored (hf : m.SharesNoField) (hc : c ∈ m.walk)
    (hruns : Mixes m c → Assoc.get? textRunsName t.1 = none)
    (h : PlacesRestored m c (m.decl c).properties s t) :
    FieldsRestored m c (s.2.map Child.element) t.1 := by
  intro hs parent hsame
  obtain ⟨hrt, hre⟩ := hf.reserved c hc
  have hfields : ∀ q ∈ (m.decl c).properties,
      Assoc.get? (m.prop q).field hs = Assoc.get? (m.prop q).field t.1 := fun q hq => by
    have hfield : (m.prop q).field ∈ m.fields c := List.mem_map_of_mem hq
    exact hsame _ (fun he => hrt (he ▸ hfield)) fun he => hre (he ▸ hfield)
  obtain ⟨y, hy, hgets⟩ := h.writes hs parent hfields fun hmixes =>
    (hsame _ (by decide) (by decide)).trans (hruns hmixes)
  obtain ⟨zs, hzs, hall⟩ := hgets.restoredAll
  exact ⟨y, zs, hy, hgets.tag, hzs, hall⟩

/-! ### Wrappers that are read as objects -/

theorem readMixed_of_runs {runs : List String} (hx : x.field = textRunsName)
    (hsome : (m.propertyNamed? c textRunsName).isSome = true)
    (hthere : ∀ q ∈ m.propertyNamed? c textRunsName, Assoc.contains (m.prop q).field fs = true)
    (hruns : Instance.Contains textRunsName fs (runs.map Datum.text))
    (h : readMixed m c x text fs [] = .ok t) :
    t.2 = [] ∧ HoldsRuns t.1 (runs ++ [text]) ∧ SameBeside textRunsName fs t.1 := by
  obtain ⟨q, hq⟩ := Option.isSome_iff_exists.mp hsome
  obtain ⟨k, hk⟩ := hruns
  have hcontains : Assoc.contains x.field fs = true := by rw [hx, Assoc.contains, hk]; rfl
  obtain ⟨us, hu, h⟩ := exceptBind_eq_ok.mp h
  rw [Instance.ensureContainer, if_pos hcontains] at hu
  cases hu
  rw [hq] at h
  obtain ⟨us, hu, h⟩ := exceptBind_eq_ok.mp h
  rw [Instance.ensureContainer, if_pos (hthere q hq)] at hu
  cases hu
  obtain ⟨gs, hg, h⟩ := exceptBind_eq_ok.mp h
  cases h
  obtain ⟨hgs, hb⟩ := appendText_ok (fun _ => (Or.inl ⟨k, hk⟩ : HoldsRuns fs runs)) hg
  exact ⟨rfl, hgs rfl, fun f hf => hb f fun _ => hf⟩

theorem writeRuns_restored {runs : List String} (hx : (m.prop q).IsForRuns) (hr : HoldsRuns fs runs)
    (parent : Xml.Element) :
    ∃ y, writeMixed (fieldWriters m fs) (m.prop q) parent = .ok y ∧ Gets m [q] es es parent y := by
  have each : List.Forall₂ (fun v (s : String) => ∃ z, (writer m v).value (m.prop q) = .ok z ∧ True)
      (runs.map Datum.text) runs :=
    List.forall₂_map_left_iff.mpr (List.forall₂_same.mpr fun _ _ => ⟨_, rfl, trivial⟩)
  obtain ⟨zs, hzs, -⟩ := exists_writtenAs each
  have hs : Instance.Has (m.prop q).field fs (runs.map Datum.text) := hx.field ▸ hr
  exact ⟨_, (writeMixed_eq_ok hs hr).mpr ⟨zs, hzs, rfl⟩, .runs hx.synthetic rfl rfl⟩

theorem holds_of_wrapper (hi : HoldsItems m c p) (hkind : (m.prop p).kind = .mixed)
    (hne : (m.prop p).field ≠ textRunsName)
    (h : (m.decl c).properties.foldlM (readProperty m c e) (Instance.fresh m c, ks) = .ok t) :
    ∃ vs, ∃ runs : List String, Instance.Contains (m.prop p).field t.1 vs ∧
      ReadAs m (m.prop p) ks vs ∧ Instance.Contains textRunsName t.1 (runs.map Datum.text) := by
  obtain ⟨q, hprops, hx⟩ := hi.mixed hkind
  rw [hprops, List.foldlM_cons] at h
  obtain ⟨u, hu, h⟩ := exceptBind_eq_ok.mp h
  obtain ⟨u', hu', h⟩ := exceptBind_eq_ok.mp h
  cases h
  rw [readProperty_of_mixed hi.isAttribute hi.reference hkind] at hu
  rw [readProperty_of_mixed hx.isAttribute hx.reference hx.kind] at hu'
  obtain ⟨hrest, vs, hvs, hread, hruns⟩ := readMixed_of_wrapper hi hkind hne hu
  rw [hrest] at hu'
  obtain ⟨hsome, hnamed⟩ := propertyNamed?_runs hi hkind
  have hthere : Instance.Contains textRunsName u.1 _ := hruns.contains (by simp)
  obtain ⟨-, hruns', hb'⟩ := readMixed_of_runs hx.field hsome (fun r hr => by
    obtain ⟨k, hk⟩ := hvs
    obtain ⟨k', hk'⟩ := hthere
    rcases hnamed r hr with hr | hr <;> simp [hr, Assoc.contains, hk, hk']) hthere hu'
  exact ⟨vs, _, hvs.congr (hb' _ hne), hread, hruns'.contains (by simp)⟩

/-- Runs of text are written twice if a wrapper is read as an object. -/
theorem fieldsRestored_of_mixed (hf : m.SharesNoField) (hc : c ∈ m.walk) (hi : HoldsItems m c p)
    (hkind : (m.prop p).kind = .mixed) (hk : ∀ k ∈ ks, ChildRestored m k)
    (h : (m.decl c).properties.foldlM (readProperty m c e) (Instance.fresh m c, ks) = .ok t) :
    FieldsRestored m c (ks.map Child.element) t.1 := by
  obtain ⟨q, hprops, hx⟩ := hi.mixed hkind
  obtain ⟨hrt, hre⟩ := hf.reserved c hc
  have hfields : m.fields c = [(m.prop p).field, textRunsName] := by
    simp [Model.fields, hprops, hx.field]
  have hne : (m.prop p).field ≠ textRunsName := by simpa [hfields] using hf.nodup c hc
  have hown : (m.prop p).field ∈ m.fields c := hfields ▸ List.mem_cons_self
  obtain ⟨vs, runs, hvs, hread, hruns⟩ := holds_of_wrapper hi hkind hne h
  intro hs parent hsame
  have hitems := hvs.congr (hsame _ (fun he => hrt (he ▸ hown)) fun he => hre (he ▸ hown))
  have hruns := hruns.congr (hsame _ (by decide) (by decide))
  obtain ⟨y, hy, hgets⟩ := writeMixed_restored hkind hk hread hitems.has hruns.has parent
  obtain ⟨z, hz, hgets'⟩ : ∃ z, _ ∧ Gets m [q] [] [] y z := writeRuns_restored hx hruns.has y
  obtain ⟨zs, hzs, hall⟩ := (hgets.trans hgets').restoredAll
  refine ⟨z, zs, ?_, hgets'.tag.trans hgets.tag, hzs, ?_⟩
  · rw [hprops, List.foldlM_cons,
      writeProperty_of_mixed hi.isAttribute hi.reference hkind hitems, hy]
    change writeProperty m _ y q >>= _ = _
    rw [writeProperty_of_mixed hx.isAttribute hx.reference hx.kind (hx.field ▸ hruns), hz]
    rfl
  · rw [itemProperties_eq, hprops]
    simpa [placeItems_own hi.isAttribute hi.reference, placeItems_own hx.isAttribute hx.reference]
      using hall

theorem fieldsRestored_of_read (hm : m.WrapsItems) (hf : m.SharesNoField) (hc : c ∈ m.walk)
    (hk : ∀ k ∈ ks, ChildRestored m k)
    (h : (m.decl c).properties.foldlM (readProperty m c e) (Instance.fresh m c, ks) = .ok t) :
    FieldsRestored m c (ks.map Child.element) t.1 := by
  have hplaces (hs : PlacesRestored m c (m.decl c).properties (Instance.fresh m c, ks) t)
      (hruns : Mixes m c → textRunsName ∉ m.fields c) :
      FieldsRestored m c (ks.map Child.element) t.1 := by
    exact hs.fieldsRestored hf hc fun hmixes => get?_of_readProperties (hruns hmixes) h
  cases hcw : (m.decl c).isWrapper with
  | false =>
    refine hplaces ?_ (hf.runs c hc hcw)
    refine placesRestored_of_read hm hf hc hcw (fun _ hq => hq) (hf.nodup c hc) hk (fun q _ => ?_) h
    rw [Instance.fresh_of_not_wrapper hcw]
    rfl
  | true =>
    obtain ⟨p, hi⟩ := hm.wrapper c hc hcw
    by_cases hkind : (m.prop p).kind = .mixed
    · exact fieldsRestored_of_mixed hf hc hi hkind hk h
    · have hprops := hi.alone hkind
      refine hplaces ?_ fun ⟨q, hq, hmixed⟩ => ?_
      · rw [hprops, List.foldlM_cons] at h
        rw [hprops]
        obtain ⟨u, hu, h⟩ := exceptBind_eq_ok.mp h
        cases h
        exact (placeRestored_of_repeated hi.isAttribute hk hi.reference hkind hi.multiplicity
          (Instance.has_fresh _ _ _) hu).cons (.nil _) List.not_mem_nil
      · obtain rfl := List.mem_singleton.mp (hprops ▸ hq)
        exact absurd hmixed hkind

theorem FieldsRestored.reads {us : Fields} {text : Option String}
    (h : FieldsRestored m c e.children gs) (hnone : Assoc.get? elementField gs = none)
    (hus : SameBeside textField gs us) (htext : Assoc.get? textField us = text.map Datum.text) :
    ReadsRestored m c e (.ok (.object c us)) := by
  rintro v ⟨⟩
  refine ⟨us, rfl, (hus _ (by decide)).trans hnone, fun hs tag hhs => ?_⟩
  obtain ⟨y, zs, hy, htag, hzs, hall⟩ := h hs { tag, text := text.getD "" }
    fun f ht he => (hhs f he).trans (hus f ht)
  refine ⟨y, ?_, htag, ⟨by rwa [hzs]⟩⟩
  unfold writeObject
  rw [get?_fieldWriters, hhs textField (by decide), htext]
  cases text <;> exact hy

theorem readObject_restored (hm : m.WrapsItems) (hf : m.SharesNoField) (hc : c ∈ m.walk)
    (hk : ∀ k ∈ ks, ChildRestored m k) (hks : ks.map Child.element = e.children) :
    ReadsRestored m c e (readObject m c e ks) := by
  intro v h
  obtain ⟨t, us, hrun, rfl, hus, -⟩ := readObject_ok h
  obtain ⟨hrt, hre⟩ := hf.reserved c hc
  have hfields := fieldsRestored_of_read hm hf hc hk hrun
  rw [hks] at hfields
  have hnone := get?_of_readProperties hre hrun
  rcases hus with rfl | ⟨-, rfl⟩
  · have hunset : Assoc.get? textField t.1 = (none : Option String).map Datum.text :=
      get?_of_readProperties hrt hrun
    exact hfields.reads hnone (.refl _ _) hunset _ rfl
  · have hset : Assoc.get? textField (Assoc.put textField (.text e.text) t.1) =
        (some e.text).map Datum.text := Assoc.get?_put_self _ _ _
    exact hfields.reads hnone (sameBeside_put _ _ _) hset _ rfl

mutual

theorem reader_restored (hm : m.WrapsItems) (hf : m.SharesNoField) : ∀ (e : Xml.Element)
    {c : ClassId}, c ∈ m.walk → ReadsRestored m c e (reader m e c)
  | ⟨_, _, _, _, children⟩, _, hc =>
    readObject_restored hm hf hc (childReaders_restored hm hf children)
      (element_childReaders children)

theorem childReaders_restored (hm : m.WrapsItems) (hf : m.SharesNoField) :
    ∀ es : List Xml.Element, ∀ k ∈ childReaders m es, ChildRestored m k
  | [], _, hk => nomatch hk
  | e :: es, k, hk => by
    rcases List.mem_cons.mp hk with rfl | hk
    · exact fun d hd => reader_restored hm hf e hd
    · exact childReaders_restored hm hf es k hk

end

/-- Whatever is read of a document comes back property by property. -/
theorem restored_of_unmarshalElement {asked : Option String} {v : Datum} (hm : m.WrapsItems)
    (hf : m.SharesNoField) (h : unmarshalElement m asked e = .ok v) :
    ∃ c y, rootClass m asked e.tag = .ok c ∧ marshalElement m v = .ok y ∧
      y.tag = boundElement m c ∧ Restored m c e y := by
  obtain ⟨c, hc, hread⟩ := exceptBind_eq_ok.mp h
  obtain ⟨fs, rfl, -, hwrite⟩ := reader_restored hm hf e (mem_walk_of_rootClass hc) v hread
  obtain ⟨y, hy, htag, hrestored⟩ := hwrite fs (boundElement m c) (.refl _ _)
  exact ⟨c, y, hc, hy, htag, hrestored⟩

end Binding
end Enfold
