import Enfold.Proofs.Binding.Written

/-! # Items in their order

What a property gathers is the value of one child after another. Mixed content gathers the text
after each child as well. Both are written in the same order, one element for each item, with the
runs of text between them.
-/

namespace Enfold

namespace Instance

variable {m : Model} {c : ClassId} {x : Property} {field : String} {fs fs' : Fields}
  {xs : List Datum} {v : Datum}

def Contains (field : String) (fs : Fields) (xs : List Datum) : Prop :=
  ∃ k, Assoc.get? field fs = some (.container k xs)

theorem Contains.has (h : Contains field fs xs) : Has field fs xs := Or.inl h

theorem Contains.congr (h : Contains field fs xs)
    (hg : Assoc.get? field fs' = Assoc.get? field fs) : Contains field fs' xs := by
  unfold Contains
  rwa [hg]

theorem Has.contains (h : Has field fs xs) (hxs : xs ≠ []) : Contains field fs xs :=
  h.resolve_right fun hn => hxs hn.2

theorem contains_of_ensureContainer (hs : Has x.field fs xs)
    (h : ensureContainer m c fs x = .ok fs') : Contains x.field fs' xs := by
  unfold ensureContainer at h
  split at h
  · next hc =>
    cases h
    refine hs.resolve_right fun hn => ?_
    simp [Assoc.contains, hn.1] at hc
  · next hc =>
    obtain ⟨y, hy, h⟩ := exceptBind_eq_ok.mp h
    cases h
    rw [field_of_wrappedField hy]
    rcases hs with ⟨k, hk⟩ | ⟨-, rfl⟩
    · simp [Assoc.contains, hk] at hc
    · obtain ⟨k, hk⟩ := exists_newContainer x
      exact ⟨k, by rw [Assoc.get?_put_self, hk]⟩

theorem contains_of_append (hs : Has field fs xs) (h : append m c fs v (some field) = .ok fs') :
    Contains field fs' (xs ++ [v]) :=
  (has_of_append hs h).1.contains (by simp)

theorem mem_fields_of_wrappedField (h : wrappedField m c (some field) = .ok x) :
    field ∈ m.fields c := by
  have hfield := field_of_wrappedField h
  unfold wrappedField at h
  dsimp only at h
  split at h
  · next y hy =>
    cases h
    obtain ⟨p, hp, rfl⟩ := List.mem_map.mp (List.mem_of_find?_eq_some hy)
    exact List.mem_map.mpr ⟨p, hp, hfield⟩
  · cases h

theorem mem_fields_of_append (h : append m c fs v (some field) = .ok fs') :
    field ∈ m.fields c := by
  obtain ⟨x, hx, -⟩ := exceptBind_eq_ok.mp h
  exact mem_fields_of_wrappedField hx

theorem sameBeside_of_ensureContainer (h : ensureContainer m c fs x = .ok fs') :
    SameBeside x.field fs fs' := by
  unfold ensureContainer at h
  split at h
  · cases h
    exact .refl _ _
  · obtain ⟨y, hy, h⟩ := exceptBind_eq_ok.mp h
    cases h
    rw [field_of_wrappedField hy]
    exact sameBeside_put _ _ _

theorem get?_fresh_of_notMem (h : field ∉ m.fields c) : Assoc.get? field (fresh m c) = none := by
  have fold (l : List PropertyId) (fs : Fields) (hl : ∀ p ∈ l, (m.prop p).field ≠ field)
      (h : Assoc.get? field fs = none) : Assoc.get? field (l.foldl (fun fs p =>
        let q := m.prop p
        if q.instantiation = some .eager then Assoc.put q.field (newContainer q) fs else fs)
        fs) = none := by
    induction l generalizing fs with
    | nil => exact h
    | cons p l ih =>
      refine ih _ (fun q hq => hl q (List.mem_cons_of_mem p hq)) ?_
      dsimp only
      split
      · rw [Assoc.get?_put_of_ne (hl p List.mem_cons_self), h]
      · exact h
  unfold fresh
  split
  · exact fold _ _ (fun p hp hf => h (hf ▸ List.mem_map_of_mem hp)) rfl
  · rfl

end Instance

namespace Binding

variable {m : Model} {c : ClassId} {x : Property} {q : PropertyId} {fs gs us : Fields}
  {xs vs : List Datum} {y parent : Xml.Element} {zs : List Xml.Element} {t : Progress}
  {ks rest : List Child} {keeps : Bool} {text : String} {runs : List String}

/-! ### Reading -/

theorem mem_of_propertyNamed? {name : String} (h : m.propertyNamed? c name = some q) :
    q ∈ (m.decl c).properties ∧ (m.prop q).name = name :=
  ⟨List.mem_of_find?_eq_some h, by simpa using List.find?_some h⟩

abbrev ReadAs (m : Model) (x : Property) (ks : List Child) (vs : List Datum) : Prop :=
  List.Forall₂ (fun k v => readValue m x k = .ok v) ks vs

/-- Items are taken as long as they are accepted. -/
theorem readItems_ok (hs : Instance.Has x.field fs xs)
    (h : readItems m c x fs ks = .ok (gs, rest)) :
    ∃ taken vs, ks = taken ++ rest ∧ (∀ k ∈ taken, accepts x k.element.tag = true) ∧
      (∀ k ∈ rest.head?, accepts x k.element.tag = false) ∧ Instance.Has x.field gs (xs ++ vs) ∧
        SameBeside x.field fs gs ∧ ReadAs m x taken vs := by
  induction ks generalizing fs xs with
  | nil =>
    cases h
    exact ⟨[], [], rfl, by simp, by simp, by rwa [List.append_nil], .refl _ _, .nil⟩
  | cons k ks ih =>
    rw [readItems] at h
    split at h
    · next ha =>
      obtain ⟨v, hv, h⟩ := exceptBind_eq_ok.mp h
      obtain ⟨us, hu, h⟩ := exceptBind_eq_ok.mp h
      obtain ⟨hus, hb⟩ := Instance.has_of_append hs hu
      obtain ⟨taken, vs, rfl, hacc, hstop, hgs, hb', hvs⟩ := ih hus h
      refine ⟨k :: taken, v :: vs, rfl, ?_, hstop, by simpa using hgs, hb.trans hb', .cons hv hvs⟩
      simpa [ha] using hacc
    · next ha =>
      cases h
      exact ⟨[], [], rfl, by simp, by simpa using ha, by rwa [List.append_nil], .refl _ _, .nil⟩

/-- Nothing changes but the field of a property and that for runs of text. -/
def SameBesideMixed (x : Property) (keeps : Bool) (fs gs : Fields) : Prop :=
  ∀ f, f ≠ x.field → (keeps = true → f ≠ textRunsName) → Assoc.get? f gs = Assoc.get? f fs

theorem SameBesideMixed.trans (h : SameBesideMixed x keeps fs gs)
    (h' : SameBesideMixed x keeps gs us) : SameBesideMixed x keeps fs us :=
  fun f hf hr => (h' f hf hr).trans (h f hf hr)

theorem SameBesideMixed.of_sameBeside (h : SameBeside x.field fs gs) :
    SameBesideMixed x keeps fs gs :=
  fun f hf _ => h f hf

def HoldsRuns (fs : Fields) (runs : List String) : Prop :=
  Instance.Has textRunsName fs (runs.map Datum.text)

theorem HoldsRuns.congr (h : HoldsRuns fs runs)
    (hg : Assoc.get? textRunsName gs = Assoc.get? textRunsName fs) : HoldsRuns gs runs :=
  Instance.Has.congr h hg

theorem appendText_ok (hr : keeps = true → HoldsRuns fs runs)
    (h : appendText m c keeps fs text = .ok gs) :
    (keeps = true → HoldsRuns gs (runs ++ [text])) ∧
      ∀ f, (keeps = true → f ≠ textRunsName) → Assoc.get? f gs = Assoc.get? f fs := by
  unfold appendText at h
  split at h
  · next hkeeps =>
    obtain ⟨hgs, hb⟩ := Instance.has_of_append (hr hkeeps) h
    exact ⟨fun _ => by simpa [HoldsRuns] using hgs, fun f hf => hb f (hf hkeeps)⟩
  · next hkeeps =>
    cases h
    exact ⟨fun hk => absurd hk hkeeps, fun _ _ => rfl⟩

theorem readMixedItems_ok (hx : keeps = true → x.field ≠ textRunsName)
    (hs : Instance.Contains x.field fs xs) (hr : keeps = true → HoldsRuns fs runs)
    (h : readMixedItems m c x keeps fs ks = .ok gs) :
    ∃ vs, Instance.Contains x.field gs (xs ++ vs) ∧ ReadAs m x ks vs ∧
      (keeps = true → HoldsRuns gs (runs ++ ks.map fun k => k.element.tail)) ∧
        SameBesideMixed x keeps fs gs := by
  induction ks generalizing fs xs runs with
  | nil =>
    cases h
    exact ⟨[], by rwa [List.append_nil], .nil, by simpa using hr, fun _ _ _ => rfl⟩
  | cons k ks ih =>
    rw [readMixedItems] at h
    obtain ⟨v, hv, h⟩ := exceptBind_eq_ok.mp h
    obtain ⟨us, hu, h⟩ := exceptBind_eq_ok.mp h
    obtain ⟨us', hu', h⟩ := exceptBind_eq_ok.mp h
    have hus := Instance.contains_of_append hs.has hu
    have hb := (Instance.has_of_append hs.has hu).2
    obtain ⟨hruns, hb'⟩ := appendText_ok
      (fun hkeeps => (hr hkeeps).congr (hb _ (hx hkeeps).symm)) hu'
    obtain ⟨vs, hgs, hvs, hruns, hb''⟩ := ih (hus.congr (hb' _ hx)) hruns h
    refine ⟨v :: vs, by simpa using hgs, .cons hv hvs, by simpa using hruns, ?_⟩
    exact .trans (.of_sameBeside hb) (.trans (fun f _ hf => hb' f hf) hb'')

/-- All children are taken, with the runs of text around them. -/
theorem readMixed_ok (hx : (m.propertyNamed? c textRunsName).isSome → x.field ≠ textRunsName)
    (hq : ∀ q, m.propertyNamed? c textRunsName = some q →
      (m.prop q).field = textRunsName ∨ (m.prop q).field = x.field)
    (hs : Instance.Has x.field fs [])
    (hr : (m.propertyNamed? c textRunsName).isSome → HoldsRuns fs [])
    (h : readMixed m c x text fs ks = .ok t) :
    t.2 = [] ∧ ∃ vs, Instance.Contains x.field t.1 vs ∧ ReadAs m x ks vs ∧
      ((m.propertyNamed? c textRunsName).isSome →
        HoldsRuns t.1 (text :: ks.map fun k => k.element.tail)) ∧
      SameBesideMixed x (m.propertyNamed? c textRunsName).isSome fs t.1 := by
  obtain ⟨us, hu, h⟩ := exceptBind_eq_ok.mp h
  have hus := Instance.contains_of_ensureContainer hs hu
  have hb := (Instance.has_of_ensureContainer hs hu).2
  -- Both containers are there before anything is read.
  have hboth : ∃ us', (do
        let fs ← appendText m c (m.propertyNamed? c textRunsName).isSome us' text
        return (← readMixedItems m c x (m.propertyNamed? c textRunsName).isSome fs ks, [])) =
          Except.ok t ∧ Instance.Contains x.field us' [] ∧
        ((m.propertyNamed? c textRunsName).isSome → HoldsRuns us' []) ∧
        SameBesideMixed x (m.propertyNamed? c textRunsName).isSome us us' := by
    dsimp only at h
    split at h
    · next q hsome =>
      obtain ⟨us', hu', h⟩ := exceptBind_eq_ok.mp h
      have hne := hx (by rw [hsome]; rfl)
      have hru : HoldsRuns us [] := (hr (by rw [hsome]; rfl)).congr (hb _ hne.symm)
      refine ⟨us', hsome ▸ h, ?_⟩
      rcases hq q hsome with hfield | hfield
      · have hruq : Instance.Has (m.prop q).field us [] := hfield ▸ hru
        obtain ⟨hru', hb'⟩ := Instance.has_of_ensureContainer hruq hu'
        rw [hfield] at hru' hb'
        exact ⟨hus.congr (hb' _ hne), fun _ => hru', fun f _ hf => hb' f (hf (by rw [hsome]; rfl))⟩
      · have husq : Instance.Has (m.prop q).field us [] := hfield ▸ hus.has
        have hus' := Instance.contains_of_ensureContainer husq hu'
        have hb' := (Instance.has_of_ensureContainer husq hu').2
        rw [hfield] at hus' hb'
        exact ⟨hus', fun _ => hru.congr (hb' _ hne.symm), .of_sameBeside hb'⟩
    · next hnone =>
      exact ⟨us, hnone ▸ h, hus, by simp [hnone], fun _ _ _ => rfl⟩
  obtain ⟨us', h, hus', hru', hb'⟩ := hboth
  obtain ⟨vs', hu', h⟩ := exceptBind_eq_ok.mp h
  obtain ⟨gs, hg, h⟩ := exceptBind_eq_ok.mp h
  cases h
  obtain ⟨hrv, hbv⟩ := appendText_ok hru' hu'
  obtain ⟨vs, hgs, hvs, hruns, hbg⟩ := readMixedItems_ok hx (hus'.congr (hbv _ hx)) hrv hg
  refine ⟨rfl, vs, hgs, hvs, hruns, ?_⟩
  exact .trans (.of_sameBeside hb) (.trans hb' (.trans (fun f _ hf => hbv f hf) hbg))

/-! ### Writing -/

def addChildren (parent : Xml.Element) (zs : List Xml.Element) : Xml.Element :=
  { parent with children := parent.children ++ zs }

@[simp] theorem addChildren_nil (parent : Xml.Element) : addChildren parent [] = parent := by
  cases parent
  simp [addChildren]

theorem addChildren_addChild (parent z : Xml.Element) (zs : List Xml.Element) :
    addChildren (addChild parent z) zs = addChildren parent (z :: zs) := by
  simp [addChildren, addChild]

/-- The elements that some data are written as when they are values of a property. -/
abbrev WrittenAs (m : Model) (x : Property) (vs : List Datum) (zs : List Xml.Element) : Prop :=
  List.Forall₂ (fun v z => (writer m v).value x = .ok z) vs zs

theorem exists_writtenAs {α : Type} {R : α → Xml.Element → Prop} {l : List α}
    (h : List.Forall₂ (fun v a => ∃ z, (writer m v).value x = .ok z ∧ R a z) vs l) :
    ∃ zs, WrittenAs m x vs zs ∧ List.Forall₂ R l zs := by
  induction h with
  | nil => exact ⟨[], .nil, .nil⟩
  | cons hv _ ih =>
    obtain ⟨z, hz, hr⟩ := hv
    obtain ⟨zs, hzs, hall⟩ := ih
    exact ⟨z :: zs, .cons hz hzs, .cons hr hall⟩

theorem writeItems_eq_ok : writeItems x parent (valueWriters m vs) = .ok y ↔
    ∃ zs, WrittenAs m x vs zs ∧ y = addChildren parent zs := by
  induction vs generalizing parent with
  | nil =>
    simp only [List.forall₂_nil_left_iff, exists_eq_left, addChildren_nil]
    exact exceptPure_eq_ok
  | cons v vs ih =>
    have hstep : writeItems x parent (valueWriters m (v :: vs)) = .ok y ↔
        ∃ z, (writer m v).value x = .ok z ∧
          writeItems x (addChild parent z) (valueWriters m vs) = .ok y := by
      cases hz : (writer m v).value x <;>
        simp [writeItems, valueWriters, hz, Except.map, bind, Except.bind]
    rw [hstep]
    simp only [ih, List.forall₂_cons_left_iff, addChildren_addChild]
    constructor
    · rintro ⟨z, hz, zs, hzs, rfl⟩
      exact ⟨z :: zs, ⟨z, zs, hz, hzs, rfl⟩, rfl⟩
    · rintro ⟨_, ⟨z, zs, hz, hzs, rfl⟩, rfl⟩
      exact ⟨z, hz, zs, hzs, rfl⟩

/-- Some elements with runs of text after them, as far as these go. -/
def withTails : List Xml.Element → List String → List Xml.Element
  | z :: zs, run :: runs => { z with tail := run } :: withTails zs runs
  | zs, _ => zs

def withTail (z : Xml.Element) (runs : List String) : Xml.Element :=
  match runs with
  | [] => z
  | run :: _ => { z with tail := run }

theorem withTails_cons (z : Xml.Element) (zs : List Xml.Element) (runs : List String) :
    withTails (z :: zs) runs = withTail z runs :: withTails zs runs.tail := by
  cases runs with
  | nil => cases zs <;> rfl
  | cons run runs => rfl

theorem forall₂_withTails {α : Type} {R : α → Xml.Element → Prop} {l : List α}
    (hR : ∀ a z tail, R a z → R a { z with tail }) (h : List.Forall₂ R l zs) (runs : List String) :
    List.Forall₂ R l (withTails zs runs) := by
  induction h generalizing runs with
  | nil => cases runs <;> exact .nil
  | @cons a z _ _ hz _ ih =>
    rw [withTails_cons]
    refine .cons ?_ (ih runs.tail)
    cases runs with
    | nil => exact hz
    | cons run runs => exact hR a z run hz

theorem writeMixedItems_eq_ok :
    writeMixedItems x parent (valueWriters m vs) (runs.map Datum.text) = .ok y ↔
      ∃ zs, WrittenAs m x vs zs ∧ y = addChildren parent (withTails zs runs) := by
  induction vs generalizing parent runs with
  | nil =>
    have hnil : withTails [] runs = [] := by cases runs <;> rfl
    simp only [List.forall₂_nil_left_iff, exists_eq_left, hnil, addChildren_nil]
    cases runs <;> exact exceptPure_eq_ok
  | cons v vs ih =>
    have hstep : writeMixedItems x parent (valueWriters m (v :: vs)) (runs.map Datum.text) =
        .ok y ↔ ∃ z, (writer m v).value x = .ok z ∧
          writeMixedItems x (addChild parent (withTail z runs)) (valueWriters m vs)
            (runs.tail.map Datum.text) = .ok y := by
      cases runs <;> cases hz : (writer m v).value x <;>
        simp [writeMixedItems, valueWriters, hz, bind, Except.bind, Datum.text, textOf, withTail]
    rw [hstep]
    simp only [ih, List.forall₂_cons_left_iff, addChildren_addChild]
    constructor
    · rintro ⟨z, hz, zs, hzs, rfl⟩
      exact ⟨z :: zs, ⟨z, zs, hz, hzs, rfl⟩, by rw [withTails_cons]⟩
    · rintro ⟨_, ⟨z, zs, hz, hzs, rfl⟩, rfl⟩
      exact ⟨z, hz, zs, hzs, by rw [withTails_cons]⟩

theorem runsOf_has (h : Instance.Has textRunsName fs xs) :
    runsOf (fieldWriters m fs) = .ok xs := by
  unfold runsOf
  rw [get?_fieldWriters]
  rcases h with ⟨k, hk⟩ | ⟨hn, rfl⟩
  · rw [hk]
    cases xs with
    | nil => rfl
    | cons run runs =>
      simp only [Option.map_some, writer_datum]
      rfl
  · rw [hn]
    rfl

/-- The first run of text goes in front, and the others after the items. -/
theorem writeMixed_eq_ok (hs : Instance.Has x.field fs vs) (hr : HoldsRuns fs runs) :
    writeMixed (fieldWriters m fs) x parent = .ok y ↔ ∃ zs, WrittenAs m x vs zs ∧
      y = addChildren { parent with text := parent.text ++ runs.headD "" }
        (withTails zs runs.tail) := by
  unfold writeMixed
  rw [runsOf_has hr, itemsOf_has hs]
  cases runs with
  | nil =>
    have hempty : ({ parent with text := parent.text ++ "" } : Xml.Element) = parent := by
      cases parent
      simp
    change writeMixedItems x parent (valueWriters m vs) (List.map Datum.text []) = .ok y ↔
      ∃ zs, _ ∧ y = addChildren { parent with text := parent.text ++ "" } (withTails zs [])
    rw [hempty]
    exact writeMixedItems_eq_ok
  | cons run runs => exact writeMixedItems_eq_ok

theorem writeProperty_of_mixed (ha : (m.prop q).isAttribute = false)
    (hr : (m.prop q).reference = none) (hk : (m.prop q).kind = .mixed)
    (h : Instance.Contains (m.prop q).field fs vs) :
    writeProperty m (fieldWriters m fs) parent q =
      writeMixed (fieldWriters m fs) (m.prop q) parent := by
  obtain ⟨kind, h⟩ := h
  rw [writeProperty_of_present h rfl, ha, hr, if_pos hk]
  rfl

end Binding
end Enfold
