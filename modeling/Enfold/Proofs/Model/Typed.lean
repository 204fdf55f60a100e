import Enfold.Proofs.Model.Draft

/-! # Descriptions of texts

Where a description has texts for names, packages and types, and objects and lists where these are
expected, the only faults that are left are reported. What is read from it is a description for a
model.
-/

namespace Enfold.Description

open Raw

/-! ### What a typed description is -/

def isText (v : Value) : Bool := v.asText?.isSome

def isTextOrNull (v : Value) : Bool := v.isNull || isText v

def isTextMapping : Value → Bool
  | .object ms => ms.all fun m => isTextOrNull m.2
  | _ => false

/-- An object of texts, with an object of substitutes if it has any. -/
def isTypedProperty : Value → Bool
  | .object ms => memberIs isText "name" ms && memberIs isTextOrNull "type" ms &&
    memberIs isTextOrNull "field" ms && memberIs isTextOrNull "adapter" ms &&
    memberIs isTextOrNull "implementation_type" ms && memberIs isTextMapping "substitutes" ms
  | _ => false

/-- An object of texts, with lists of properties and of nested classes. -/
def isTypedClass : Value → Bool
  | .object ms => memberIs isText "name" ms && memberIs isTextOrNull "package" ms &&
    memberIs isTextOrNull "source" ms && memberIs isTextOrNull "implementation" ms &&
    memberIs isTextOrNull "element" ms && memberIs isTextOrNull "base" ms &&
    (propertiesMember ms).items?.isSome && (nestedMember ms).items?.isSome &&
    (propertyValues ms).all isTypedProperty
  | _ => false

def isHeaded (v : Value) : Bool :=
  (v.member? "package").all isTextOrNull && ((episodeMember v).items?.getD []).all isText

/-- A description in which everything is of the right kind. Names may be missing. -/
def isTyped (v : Value) : Bool :=
  (classesOf v).isSome && isHeaded v && (listed v).all fun l => isTypedClass l.entry

def isTitledProperty : Value → Bool
  | .object ms => (Assoc.get? "name" ms).isSome && memberIs isKind "kind" ms
  | _ => false

/-- A class has a name, and so have its properties, with content of known kinds. -/
def isTitled : Value → Bool
  | .object ms => (Assoc.get? "name" ms).isSome && (propertyValues ms).all isTitledProperty
  | _ => false

theorem exists_classes {v : Value} (h : isTyped v) : ∃ classes, classesOf v = some classes := by
  simp only [isTyped, Bool.and_eq_true] at h
  exact Option.isSome_iff_exists.mp h.1.1

theorem isTypedClass_of_mem {v : Value} {l : Listing} (h : isTyped v) (hl : l ∈ listed v) :
    isTypedClass l.entry := by
  simp only [isTyped, Bool.and_eq_true, List.all_eq_true] at h
  exact h.2 l hl

/-! ### Its faults -/

theorem isKey_of_isText {v : Value} (h : isText v) : v.isKey := by
  cases v with
  | text => rfl
  | null | bool | int | decimal | list | object => cases h

theorem isSome_parts?_of_items? {v : Value} (h : v.items?.isSome) : v.parts?.isSome := by
  cases v with
  | list => rfl
  | null | bool | int | decimal | text | object => cases h

theorem isOk_toPairs_of_isTextMapping {ms : Members} (h : memberIs isTextMapping "substitutes" ms) :
    (substitutesMember ms).toPairs.isOk := by
  unfold memberIs at h
  unfold substitutesMember member
  cases hs : Assoc.get? "substitutes" ms with
  | none => rfl
  | some v =>
    rw [hs] at h
    cases v with
    | object => rfl
    | null | bool | int | decimal | text | list => cases h

theorem firstFault?_propertyParts {v : Value} (h : isTypedProperty v) :
    firstFault? (propertyParts v) = if isTitledProperty v then none else some .reported := by
  cases v with
  | object ms =>
    simp only [isTypedProperty, Bool.and_eq_true] at h
    have hs := isOk_toPairs_of_isTextMapping h.2
    cases hname : (Assoc.get? "name" ms).isSome <;> cases hkind : memberIs isKind "kind" ms <;>
      simp [firstFault?, propertyParts, Part.fault?, entryFault?, isTitledProperty, hname, hkind, hs]
  | null | bool | int | decimal | text | list => cases h

theorem firstFault?_flatMap {α : Type} {f : α → List Part} {good : α → Bool} {l : List α}
    (h : ∀ a ∈ l, firstFault? (f a) = if good a then none else some .reported) :
    firstFault? (l.flatMap f) = if l.all good then none else some .reported := by
  induction l with
  | nil => rfl
  | cons a l ih =>
    rw [List.forall_mem_cons] at h
    rw [List.flatMap_cons, firstFault?_append, h.1, ih h.2, List.all_cons]
    cases good a <;> rfl

theorem firstFault?_entryParts {v : Value} (h : isTypedClass v) :
    firstFault? (entryParts v) = if isTitled v then none else some .reported := by
  cases v with
  | object ms =>
    simp only [isTypedClass, Bool.and_eq_true, List.all_eq_true] at h
    obtain ⟨⟨⟨-, hp⟩, hn⟩, hall⟩ := h
    have hproperties := firstFault?_flatMap fun v hv => firstFault?_propertyParts (hall v hv)
    have hp := isSome_parts?_of_items? hp
    have hn := isSome_parts?_of_items? hn
    have hparts : entryParts (.object ms) = [.entry (.object ms), .run (propertiesMember ms)] ++
      ((propertyValues ms).flatMap propertyParts ++ [.run (nestedMember ms)]) := rfl
    rw [hparts, firstFault?_append, firstFault?_append, hproperties]
    cases hname : (Assoc.get? "name" ms).isSome <;>
      cases ht : (propertyValues ms).all isTitledProperty <;>
      simp [firstFault?, Part.fault?, entryFault?, isTitled, hname, ht, hp, hn]
  | null | bool | int | decimal | text | list => cases h

theorem firstFault?_partsOf {v : Value} (h : isTyped v) : firstFault? (partsOf v) =
    if (listed v).all fun l => isTitled l.entry then none else some .reported := by
  simp only [isTyped, isHeaded, Bool.and_eq_true, List.all_eq_true] at h
  obtain ⟨⟨-, -, hepisode⟩, hentries⟩ := h
  have hhead : (Part.episode (episodeMember v)).fault? = none := by
    rw [Part.fault?, if_pos]
    exact List.all_eq_true.mpr fun r hr => isKey_of_isText (hepisode r hr)
  have hrest : firstFault? ((listed v).flatMap fun l => entryParts l.entry) =
      if (listed v).all fun l => isTitled l.entry then none else some .reported :=
    firstFault?_flatMap fun l hl => firstFault?_entryParts (hentries l hl)
  rw [partsOf, firstFault?, List.findSome?_cons, hhead]
  exact hrest

theorem exists_description_iff {v : Value} (h : isTyped v) :
    (∃ d, Raw.Description.ofValue v = .ok d) ↔ ∀ l ∈ listed v, isTitled l.entry := by
  obtain ⟨classes, hc⟩ := exists_classes h
  have hverdict := verdict_ofValue hc
  have hfault := firstFault?_partsOf h
  rw [← List.all_eq_true]
  cases hall : (listed v).all fun l => isTitled l.entry with
  | true =>
    rw [hall] at hfault
    exact ⟨fun _ => rfl, fun _ => hverdict.of_none hfault⟩
  | false =>
    rw [hall] at hfault
    obtain ⟨e, he, -⟩ := hverdict.of_some _ hfault
    simp [he]

theorem isReport_of_description {v : Value} {e : DescriptionError} (h : isTyped v)
    (he : Raw.Description.ofValue v = .error e) : e.isReport := by
  obtain ⟨classes, hc⟩ := exists_classes h
  have hverdict := verdict_ofValue hc
  have hfault := firstFault?_partsOf h
  split at hfault
  · obtain ⟨d, hd⟩ := hverdict.of_none hfault
    rw [hd] at he
    cases he
  · obtain ⟨e', he', hshows⟩ := hverdict.of_some _ hfault
    rw [he'] at he
    cases he
    exact hshows

/-! ### Its texts -/

theorem exists_asText? {v : Value} (h : isText v) : ∃ s, v.asText? = some s :=
  Option.isSome_iff_exists.mp h

theorem exists_textOrNull? {v : Value} (h : isTextOrNull v) : ∃ t, v.textOrNull? = some t := by
  cases v with
  | null | text => exact ⟨_, rfl⟩
  | bool | int | decimal | list | object => cases h

theorem of_memberIs {test : Value → Bool} {name : String} {ms : Members} (missing : Value)
    (h : memberIs test name ms) (hmissing : test missing) : test (member name ms missing) := by
  unfold memberIs at h
  unfold member
  cases hv : Assoc.get? name ms with
  | none => exact hmissing
  | some v => rwa [hv] at h

theorem of_nameMember {nameless : DescriptionError} {ms : Members} {name : Value}
    (h : memberIs isText "name" ms) (hname : nameMember nameless ms = .ok name) : isText name := by
  unfold nameMember at hname
  unfold memberIs at h
  split at hname
  · next v hv => cases hname; rwa [hv] at h
  · cases hname

theorem isText_field {ms : Members} {name : Value} (hname : isText name)
    (h : memberIs isTextOrNull "field" ms) :
    isText (if (member "field" ms).isTruthy then member "field" ms else name) := by
  have hfield := of_memberIs .null h rfl
  split
  · next ht =>
    cases hv : member "field" ms with
    | text => rfl
    | null => rw [hv] at ht; cases ht
    | bool | int | decimal | list | object => rw [hv] at hfield; cases hfield
  · exact hname

theorem exists_letteredPairs {ms : Members} {pairs : List (Value × Value)}
    (h : memberIs isTextMapping "substitutes" ms)
    (hpairs : (substitutesMember ms).toPairs.mapError DescriptionError.misuse = .ok pairs) :
    ∃ r, pairs.mapM letteredPair? = some r := by
  have hmapping : isTextMapping (substitutesMember ms) := of_memberIs _ h rfl
  rw [mapError_eq_ok] at hpairs
  cases hs : substitutesMember ms with
  | object members =>
    rw [hs] at hmapping hpairs
    cases hpairs
    refine exists_mapM_eq_some (List.forall_mem_map.mpr fun m hm => ?_)
    obtain ⟨t, ht⟩ := exists_textOrNull? (List.all_eq_true.mp hmapping m hm)
    exact ⟨(m.1, t), by simp [letteredPair?, Value.asText?, ht]⟩
  | null | bool | int | decimal | text | list => rw [hs] at hmapping; cases hmapping

theorem exists_letteredProperty {owner : String} {v : Value} {p : Raw.Property}
    (h : isTypedProperty v) (hp : Raw.property owner v = .ok p) : ∃ y, p.lettered? = some y := by
  cases v with
  | object ms =>
    simp only [isTypedProperty, Bool.and_eq_true] at h
    obtain ⟨⟨⟨⟨⟨hn, ht⟩, hf⟩, ha⟩, hi⟩, hs⟩ := h
    obtain ⟨name, hname, hp⟩ := exceptBind_eq_ok.mp hp
    obtain ⟨kind, -, hp⟩ := exceptBind_eq_ok.mp hp
    obtain ⟨pairs, hpairs, hp⟩ := exceptBind_eq_ok.mp hp
    cases hp
    have hname := of_nameMember hn hname
    obtain ⟨substitutes, hsubstitutes⟩ := exists_letteredPairs hs hpairs
    obtain ⟨name', hname'⟩ := exists_asText? hname
    obtain ⟨field, hfield⟩ := exists_asText? (isText_field hname hf)
    obtain ⟨valueType, hvalueType⟩ := exists_textOrNull? (of_memberIs (.text "str") ht rfl)
    obtain ⟨adapter, hadapter⟩ := exists_textOrNull? (of_memberIs .null ha rfl)
    obtain ⟨implementation, himplementation⟩ :=
      exists_textOrNull? (of_memberIs .null hi rfl)
    simp only [Property.lettered?, hsubstitutes, hname', hfield, hvalueType, hadapter,
      himplementation, Option.bind_eq_bind, Option.bind_some, Option.pure_def]
    exact ⟨_, rfl⟩
  | null | bool | int | decimal | text | list => cases h

theorem exists_letteredPackage {ms : Members} (h : memberIs isTextOrNull "package" ms) :
    ∃ t, (Assoc.get? "package" ms).mapM Value.textOrNull? = some t := by
  unfold memberIs at h
  cases hv : Assoc.get? "package" ms with
  | none => exact ⟨none, rfl⟩
  | some v =>
    rw [hv] at h
    obtain ⟨t, ht⟩ := exists_textOrNull? h
    exact ⟨some t, by simp [ht]⟩

theorem exists_singleClass {v : Value} {x : Raw.ClassEntry} (h : isTypedClass v)
    (hx : Raw.singleClass v = .ok x) : ∃ e, x.lettered? = some e := by
  cases v with
  | object ms =>
    simp only [isTypedClass, Bool.and_eq_true, List.all_eq_true] at h
    obtain ⟨⟨⟨⟨⟨⟨⟨⟨hn, hp⟩, hs⟩, hi⟩, he⟩, -⟩, -⟩, -⟩, hall⟩ := h
    obtain ⟨name, hname, hx⟩ := exceptBind_eq_ok.mp hx
    obtain ⟨parts, hparts, hx⟩ := exceptBind_eq_ok.mp hx
    obtain ⟨properties, hproperties, hx⟩ := exceptBind_eq_ok.mp hx
    cases hx
    obtain ⟨name', hname'⟩ := exists_asText? (of_nameMember hn hname)
    obtain ⟨package, hpackage⟩ := exists_letteredPackage hp
    obtain ⟨properties', hproperties'⟩ : ∃ r, properties.mapM Property.lettered? = some r := by
      refine exists_mapM_eq_some fun p hp => ?_
      obtain ⟨v, hv, hp⟩ := mapM_eq_ok_mem hproperties hp
      exact exists_letteredProperty (hall v (propertyValues_eq hparts ▸ hv)) hp
    obtain ⟨source, hsource⟩ := exists_textOrNull? (of_memberIs .null hs rfl)
    obtain ⟨implementation, himplementation⟩ :=
      exists_textOrNull? (of_memberIs .null hi rfl)
    obtain ⟨element, helement⟩ := exists_textOrNull? (of_memberIs .null he rfl)
    simp only [ClassEntry.lettered?, hname', hpackage, hproperties', hsource, himplementation,
      helement, Option.bind_eq_bind, Option.bind_some, Option.pure_def]
    exact ⟨_, rfl⟩
  | null | bool | int | decimal | text | list => cases h

mutual

theorem exists_letteredTree : ∀ {r : Raw.ClassTree} {v : Value} {s : Scope} {place : Nat},
    tree v = .ok r → (∀ l ∈ listing s place v, isTypedClass l.entry) → ∃ t, r.lettered? = some t
  | .node x rs, v, s, place, hr, ht => by
    obtain ⟨ms, rfl, hx, hrs⟩ := of_tree_eq_ok hr
    rw [listing_object, List.forall_mem_cons] at ht
    obtain ⟨e, he⟩ := exists_singleClass ht.1 hx
    obtain ⟨ts, hts⟩ := exists_letteredTrees hrs ht.2
    exact ⟨_, ClassTree.lettered?_eq_some.mpr ⟨e, he, ts, hts, rfl⟩⟩

theorem exists_letteredTrees : ∀ {rs : List Raw.ClassTree} {vs : List Value} {s : Scope}
    {place : Nat}, trees vs = .ok rs → (∀ l ∈ listings s place vs, isTypedClass l.entry) →
    ∃ ts, letteredTrees? rs = some ts
  | [], vs, s, place, hr, ht => ⟨[], rfl⟩
  | r :: rs, vs, s, place, hr, ht => by
    obtain ⟨v, vs, rfl, hv, hvs⟩ := of_trees_cons_eq_ok hr
    rw [listings, List.forall_mem_append] at ht
    obtain ⟨t, ht'⟩ := exists_letteredTree hv ht.1
    obtain ⟨ts, hts⟩ := exists_letteredTrees hvs ht.2
    exact ⟨t :: ts, letteredTrees?_cons_eq_some.mpr ⟨t, ht', ts, hts, rfl⟩⟩

end

theorem mem_of_mem_eraseDupsBy {α : Type} {f : α → α → Bool} {a : α} :
    ∀ {l : List α}, a ∈ l.eraseDupsBy f → a ∈ l
  | [], h => h
  | b :: l, h => by
    rw [List.eraseDupsBy_cons] at h
    rcases List.mem_cons.mp h with rfl | h
    · exact List.mem_cons_self
    · exact List.mem_cons_of_mem b (List.mem_filter.mp (mem_of_mem_eraseDupsBy h)).1
  termination_by l => l.length
  decreasing_by exact Nat.lt_succ_of_le (List.length_filter_le _ _)

theorem exists_letteredEpisode {v : Value} {episode : Option (List Value)}
    (h : (v.items?.getD []).all isText) (he : episodeOf v = .ok episode) :
    ∃ e, (episode.mapM fun refs => refs.mapM Value.asText?) = some e := by
  unfold episodeOf at he
  split at he
  · cases he; exact ⟨_, rfl⟩
  · next refs =>
    split at he
    · cases he
      obtain ⟨texts, htexts⟩ : ∃ r, (refs.eraseDupsBy Value.same).mapM Value.asText? = some r :=
        exists_mapM_eq_some fun r hr =>
          exists_asText? (List.all_eq_true.mp h r (mem_of_mem_eraseDupsBy hr))
      exact ⟨some texts, by simp [htexts]⟩
    · cases he
  · cases he; exact ⟨_, rfl⟩

/-- What is read from a typed description is a description for a model. -/
theorem exists_lettered {v : Value} {r : Raw.Description} (h : isTyped v)
    (hr : Raw.Description.ofValue v = .ok r) : ∃ d, r.lettered? = some d := by
  simp only [isTyped, isHeaded, Bool.and_eq_true, List.all_eq_true] at h
  obtain ⟨⟨hc, hp, hepisode⟩, hentries⟩ := h
  obtain ⟨classes, hc⟩ := Option.isSome_iff_exists.mp hc
  unfold Raw.Description.ofValue at hr
  unfold listed at hentries
  rw [hc] at hr hentries
  obtain ⟨episode, he, hr⟩ := exceptBind_eq_ok.mp hr
  obtain ⟨rs, hrs, hr⟩ := exceptBind_eq_ok.mp hr
  cases hr
  obtain ⟨e, he⟩ := exists_letteredEpisode (List.all_eq_true.mpr hepisode) he
  obtain ⟨ts, hts⟩ := exists_letteredTrees hrs hentries
  obtain ⟨t, ht⟩ : ∃ t, ((v.member? "package").getD (.text "")).textOrNull? = some t := by
    cases hv : v.member? "package" with
    | none => exact ⟨_, rfl⟩
    | some p => rw [hv] at hp; exact exists_textOrNull? hp
  simp only [Raw.Description.lettered?, ht, he, hts, Option.bind_eq_bind, Option.bind_some,
    Option.pure_def]
  exact ⟨_, rfl⟩

end Enfold.Description
