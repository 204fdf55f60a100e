import Enfold.Proofs.Options.Spelling

/-! # Overrides on top of loaded options

Overrides are put on top of what is custom in loaded options, and this on top of the options
themselves. What is custom is told from options again on the way. So the overrides change nothing
but what they name as long as no custom entry is spelled like an option, and only then.
-/

namespace Enfold.Options

/-- A key is spelled like an option, or like the custom entries as a whole. -/
def SpellsOption (key : String) : Prop := canonicalName key ∈ "custom" :: names

instance (key : String) : Decidable (SpellsOption key) := inferInstanceAs (Decidable (_ ∈ _))

def unknown? (key : String) (source : RawOptions) : Option Value :=
  if SpellsOption key then none else spelled? key source

def customOf (source : RawOptions) : Value := (spelled? "custom" source).getD (.object [])

/-- No entry is spelled like an option. -/
def Unmistakable (entries : RawOptions) : Prop := ∀ key ∈ Assoc.keys entries, ¬ SpellsOption key

theorem canonicalName_eq_custom {key : String} : canonicalName key = "custom" ↔ key = "custom" := by
  unfold canonicalName
  split_ifs <;> simp_all

theorem spellsOption_of_canonicalName {key name : String} (hn : name ∈ names)
    (h : canonicalName key = name) : SpellsOption key :=
  List.mem_cons_of_mem _ (h ▸ hn)

theorem spellsOption_custom : SpellsOption "custom" := List.mem_cons_self

theorem spelled?_eq_none {key : String} {source : RawOptions} (h : key ∉ Assoc.keys source) :
    spelled? key source = none :=
  Assoc.get?_eq_none fun hk => h (by simpa [Assoc.keys] using hk)

theorem spelled?_cons (key : String) (e : String × Value) (source : RawOptions) :
    spelled? key (e :: source) =
      (spelled? key source).or (if e.1 = key then some e.2 else none) :=
  Assoc.get?_reverse_cons e source

/-! ### Values as mappings -/

theorem parts?_eq_some {v : Value} {parts : List Value} (h : v.parts? = some parts) :
    v = .list parts ∨ ∀ part ∈ parts, ∃ t, part = .text t := by
  cases v with
  | list items => exact Or.inl (congrArg Value.list (Option.some.inj h))
  | text s =>
    cases h
    exact Or.inr (List.forall_mem_map.mpr fun c _ => ⟨_, rfl⟩)
  | object members =>
    cases h
    exact Or.inr (List.forall_mem_map.mpr fun m _ => ⟨_, rfl⟩)
  | null | bool | int | decimal => cases h

theorem parts?_of_pair {place : Nat} {v w : Value} {key : String}
    (h : v.pair place = .ok (key, w)) : v.parts? = some [.text key, w] := by
  obtain ⟨⟨k, a⟩, hpair, h⟩ := exceptBind_eq_ok.mp h
  have hkey : k = .text key ∧ a = w := by
    cases k with
    | text => cases h; exact ⟨rfl, rfl⟩
    | null | bool | int | decimal | list | object => cases h
  obtain ⟨rfl, rfl⟩ := hkey
  unfold Value.pairAt at hpair
  split at hpair
  · cases hpair
  · next hparts => split at hpair <;> cases hpair; exact hparts
  · cases hpair

theorem pair_eq_ok {place : Nat} {v w : Value} {key : String} (h : v.pair place = .ok (key, w)) :
    v = .list [.text key, w] ∨ ∃ t, w = .text t :=
  (parts?_eq_some (parts?_of_pair h)).imp_right fun ht => ht _ (by simp)

theorem pair_char (place : Nat) (c : Char) (e : String × Value) :
    Value.pair place (.text c.toString) ≠ .ok e := by
  intro h
  simpa [Value.parts?] using parts?_of_pair h

theorem ne_object_of_mem {members : RawOptions} {key : String} {w : Value}
    (h : (key, w) ∈ members) : w ≠ .object members := by
  have hlt := List.sizeOf_lt_of_mem h
  rintro rfl
  simp at hlt
  omega

theorem ne_of_mem_parts {v part w : Value} {parts : List Value} {place : Nat} {key : String}
    (hv : ∀ members, v ≠ .object members) (hparts : v.parts? = some parts) (hpart : part ∈ parts)
    (h : part.pair place = .ok (key, w)) : w ≠ v := by
  cases v with
  | list items =>
    cases hparts
    have hlt := List.sizeOf_lt_of_mem hpart
    rcases pair_eq_ok h with rfl | ⟨t, rfl⟩
    · rintro rfl
      simp at hlt
      omega
    · exact Value.noConfusion
  | text s =>
    cases hparts
    obtain ⟨c, -, rfl⟩ := List.mem_map.mp hpart
    exact absurd h (pair_char _ _ _)
  | object members => exact absurd rfl (hv members)
  | null | bool | int | decimal => cases hparts

theorem ne_of_toMappingOrEmpty {v w : Value} {m : RawOptions} {key : String}
    (h : v.toMappingOrEmpty = .ok m) (hw : Assoc.get? key m = some w) : w ≠ v := by
  unfold Value.toMappingOrEmpty Value.toMapping at h
  split at h
  · split at h
    · cases h
      exact ne_object_of_mem (Assoc.mem_of_get? hw)
    · next hobject =>
      split at h
      · cases h
      · next parts hparts =>
        obtain ⟨pairs, hpairs, rfl⟩ := exceptMap_eq_ok.mp h
        rw [Assoc.ofList, Assoc.get?_merge, Assoc.get?_nil, Option.or_none] at hw
        obtain ⟨part, hpart, hp⟩ :=
          mapM_eq_ok_mem hpairs (List.mem_reverse.mp (Assoc.mem_of_get? hw))
        exact ne_of_mem_parts hobject hparts (List.fst_mem_of_mem_zipIdx hpart) hp
  · cases h
    cases hw

/-! ### What is custom -/

theorem set?_eq_none_iff {o : Options} {key : String} {v : Value} :
    o.set? key v = none ↔ key ∉ "custom" :: names := by
  constructor
  · intro h hk
    rcases List.mem_cons.mp hk with rfl | hk
    · cases h
    · exact notMem_names_of_set? h hk
  · intro h
    unfold set?
    split <;> first | rfl | exact absurd (by decide) h

theorem tellApart_of_not_spellsOption {e : String × Value} (h : ¬ SpellsOption e.1)
    (acc : Options × RawOptions) : tellApart acc e = (acc.1, Assoc.put e.1 e.2 acc.2) := by
  rw [tellApart, set?_eq_none_iff.mpr h]

theorem tellApart_of_spellsOption {e : String × Value} (h : SpellsOption e.1)
    (acc : Options × RawOptions) :
    ∃ o, acc.1.set? (canonicalName e.1) e.2 = some o ∧ tellApart acc e = (o, acc.2) := by
  cases ho : acc.1.set? (canonicalName e.1) e.2 with
  | none => exact absurd h (set?_eq_none_iff.mp ho)
  | some o => exact ⟨o, rfl, by rw [tellApart, ho]⟩

theorem custom_of_set? {o o' : Options} {key : String} {v : Value} (h : o.set? key v = some o') :
    o'.custom = if key = "custom" then v else o.custom := by
  unfold set? at h
  split at h <;> cases h <;> rfl

theorem custom_tellApart (acc : Options × RawOptions) (e : String × Value) :
    (tellApart acc e).1.custom = if e.1 = "custom" then e.2 else acc.1.custom := by
  by_cases h : SpellsOption e.1
  · obtain ⟨o, ho, he⟩ := tellApart_of_spellsOption h acc
    rw [he, custom_of_set? ho]
    simp only [canonicalName_eq_custom]
  · have hne : e.1 ≠ "custom" := fun hc => h (hc ▸ spellsOption_custom)
    rw [tellApart_of_not_spellsOption h, if_neg hne]

theorem custom_foldl_tellApart (raw : RawOptions) (acc : Options × RawOptions) :
    (raw.foldl tellApart acc).1.custom = (spelled? "custom" raw).getD acc.1.custom := by
  induction raw generalizing acc with
  | nil => rfl
  | cons e raw ih =>
    rw [List.foldl_cons, ih, custom_tellApart, spelled?_cons]
    cases spelled? "custom" raw <;> split <;> rfl

theorem get?_foldl_tellApart (raw : RawOptions) (acc : Options × RawOptions) (key : String) :
    Assoc.get? key (raw.foldl tellApart acc).2 = (unknown? key raw).or (Assoc.get? key acc.2) := by
  induction raw generalizing acc with
  | nil => unfold unknown?; split <;> rfl
  | cons e raw ih =>
    have hstep : Assoc.get? key (tellApart acc e).2 =
        (if e.1 = key ∧ ¬ SpellsOption key then some e.2 else none).or (Assoc.get? key acc.2) := by
      by_cases h : SpellsOption e.1
      · obtain ⟨o, -, he⟩ := tellApart_of_spellsOption h acc
        rw [he, if_neg fun hk => hk.2 (hk.1 ▸ h), Option.none_or]
      · rw [tellApart_of_not_spellsOption h, Assoc.get?_put]
        by_cases hk : e.1 = key
        · rw [if_pos hk, if_pos ⟨hk, hk ▸ h⟩, Option.some_or]
        · rw [if_neg hk, if_neg fun h => hk h.1, Option.none_or]
    rw [List.foldl_cons, ih, hstep, ← Option.or_assoc]
    unfold unknown?
    rw [spelled?_cons]
    split <;> simp_all

theorem nodup_keys_foldl_tellApart {raw : RawOptions} {acc : Options × RawOptions}
    (h : (Assoc.keys acc.2).Nodup) : (Assoc.keys (raw.foldl tellApart acc).2).Nodup := by
  induction raw generalizing acc with
  | nil => exact h
  | cons e raw ih =>
    refine ih ?_
    by_cases hs : SpellsOption e.1
    · obtain ⟨o, -, he⟩ := tellApart_of_spellsOption hs acc
      rwa [he]
    · rw [tellApart_of_not_spellsOption hs]
      exact Assoc.nodup_keys_put h

/-- Entries that spell no option are added to the custom ones. -/
theorem ofRaw_eq (raw : RawOptions) : ofRaw raw =
    if (raw.foldl tellApart ({}, [])).2.isEmpty then .ok (raw.foldl tellApart ({}, [])).1
    else (customOf raw).toMappingOrEmpty.map fun custom =>
      { (raw.foldl tellApart ({}, [])).1 with
        custom := .object (Assoc.merge custom (raw.foldl tellApart ({}, [])).2) } := by
  have hc : (raw.foldl tellApart ({}, [])).1.custom = customOf raw := custom_foldl_tellApart raw _
  rw [← hc]
  change (if (raw.foldl tellApart ({}, [])).2.isEmpty then _ else _) = _
  split
  · rfl
  · exact bind_pure_comp _ _

theorem get?_custom_ofRaw {raw given : RawOptions} {o : Options} (h : ofRaw raw = .ok o)
    (hg : (customOf raw).toMappingOrEmpty = .ok given) : ∃ kept,
      o.custom.toMappingOrEmpty = .ok kept ∧
      ∀ key, Assoc.get? key kept = (unknown? key raw).or (Assoc.get? key given) := by
  have left (key : String) : Assoc.get? key (raw.foldl tellApart ({}, [])).2 = unknown? key raw := by
    rw [get?_foldl_tellApart, Assoc.get?_nil, Option.or_none]
  have hnodup : (Assoc.keys (raw.foldl tellApart ({}, [])).2).Nodup :=
    nodup_keys_foldl_tellApart List.nodup_nil
  rw [ofRaw_eq, hg] at h
  split at h
  · next he =>
    cases h
    refine ⟨given, ?_, fun key => ?_⟩
    · rw [custom_foldl_tellApart]
      exact hg
    · rw [← left, List.isEmpty_iff.mp he, Assoc.get?_nil, Option.none_or]
  · cases h
    refine ⟨_, toMappingOrEmpty_object _, fun key => ?_⟩
    rw [Assoc.get?_merge, Assoc.get?_reverse hnodup, left]

theorem ofRaw_eq_error {raw : RawOptions} {e : Misuse} (h : ofRaw raw = .error e) :
    (customOf raw).toMappingOrEmpty = .error e := by
  rw [ofRaw_eq] at h
  split at h
  · cases h
  · cases hc : (customOf raw).toMappingOrEmpty with
    | error e' =>
      rw [hc] at h
      cases h
      rfl
    | ok given =>
      rw [hc] at h
      cases h

theorem exists_given_of_ofRaw {raw kept : RawOptions} {o : Options} (h : ofRaw raw = .ok o)
    (hk : o.custom.toMappingOrEmpty = .ok kept) :
    ∃ given, (customOf raw).toMappingOrEmpty = .ok given := by
  rw [ofRaw_eq] at h
  split at h
  · cases h
    rw [custom_foldl_tellApart] at hk
    exact ⟨kept, hk⟩
  · obtain ⟨given, hg, -⟩ := exceptMap_eq_ok.mp h
    exact ⟨given, hg⟩

theorem custom_ofRaw_eq_object {raw given : RawOptions} {o : Options} (h : ofRaw raw = .ok o)
    (hg : customOf raw = .object given) : ∃ kept, o.custom = .object kept := by
  rw [ofRaw_eq] at h
  split at h
  · cases h
    exact ⟨given, (custom_foldl_tellApart raw _).trans hg⟩
  · obtain ⟨custom, -, rfl⟩ := exceptMap_eq_ok.mp h
    exact ⟨_, rfl⟩

/-! ### Overrides -/

section Override

variable {files : FileTree} {custom configFile args : Value} {c o : Options}
  {entries overrides : RawOptions} {f : Failure}

def layered (c : Options) (entries overrides : RawOptions) : RawOptions :=
  Assoc.merge defaults (Assoc.merge (Assoc.merge c.toRaw entries) overrides)

theorem build_built_eq (hc : c.custom.toMapping = .ok entries) (ho : overrides ≠ []) :
    build files (.built c) overrides =
      (ofRaw (layered c entries overrides)).mapError .misuse >>= validated files := by
  have hload (raw : RawOptions) : load files (.object raw) .null .null =
      (ofRaw (Assoc.merge defaults raw)).mapError .misuse >>= validated files := by
    rw [load, toMappingOrEmpty_object]
    rfl
  rw [build, override, if_neg (by simpa using ho), hc]
  exact hload _

theorem spelled?_layered {key : String} (h : key ∉ names) :
    spelled? key (layered c entries overrides) =
      (spelled? key overrides).or (spelled? key entries) := by
  have hd : (Assoc.keys defaults).Nodup := by decide
  have hdefaults : key ∉ Assoc.keys defaults := fun hk =>
    h ((by decide : ∀ k ∈ Assoc.keys defaults, k ∈ names) key hk)
  have hc : key ∉ Assoc.keys c.toRaw := h
  have hb := nodup_keys_toRaw c
  have hn : (Assoc.keys (Assoc.merge (Assoc.merge c.toRaw entries) overrides)).Nodup :=
    Assoc.nodup_keys_merge (Assoc.nodup_keys_merge hb)
  rw [layered, spelled?_merge hd, spelled?_merge (Assoc.nodup_keys_merge hb), spelled?_merge hb,
    spelled?_eq_none hdefaults, spelled?_eq_none hc, Option.or_none, Option.or_none]

theorem prevailing_of_layered (h : ofRaw (layered c entries overrides) = .ok o) {name : String}
    (hn : name ∈ names) :
    Assoc.get? name o.toRaw = prevailing? name [overrides, entries, c.toRaw] := by
  have hb := nodup_keys_toRaw c
  have h : ofRaw (Assoc.merge (Assoc.merge defaults [])
      (Assoc.merge (Assoc.merge c.toRaw entries) overrides)) = .ok o := h
  refine get?_toRaw_of_layers (fun key => ?_) h hn
  simp only [findSome?_spelled?_cons, spelled?_merge (Assoc.nodup_keys_merge hb),
    spelled?_merge hb, Option.or_assoc]
  rfl

theorem canonicalName_of_mem_names {name : String} (h : name ∈ names) : canonicalName name = name :=
  (canonicalName_eq_iff h).mpr (Or.inl rfl)

theorem canonicalName_otherSpelling {name : String} (h : name ∈ names) :
    canonicalName (otherSpelling name) = name :=
  (canonicalName_eq_iff h).mpr (Or.inr rfl)

theorem otherSpelling_notMem_names {name : String} (h : name ∈ names)
    (ho : otherSpelling name ≠ name) : otherSpelling name ∉ names := fun hmem =>
  ho ((canonicalName_of_mem_names hmem).symm.trans (canonicalName_otherSpelling h))

theorem Unmistakable.spelled?_eq_none {key : String} (h : Unmistakable entries)
    (hk : SpellsOption key) : spelled? key entries = none :=
  Options.spelled?_eq_none fun hmem => h key hmem hk

theorem Unmistakable.prevailing?_eq (h : Unmistakable entries) {name : String}
    (hn : name ∈ names) : prevailing? name [overrides, entries, c.toRaw] =
      (mentioned? name overrides).or (Assoc.get? name c.toRaw) := by
  have hname : spelled? name entries = none :=
    h.spelled?_eq_none (spellsOption_of_canonicalName hn (canonicalName_of_mem_names hn))
  have hother : spelled? (otherSpelling name) entries = none :=
    h.spelled?_eq_none (spellsOption_of_canonicalName hn (canonicalName_otherSpelling hn))
  have hc : spelled? name c.toRaw = Assoc.get? name c.toRaw :=
    Assoc.get?_reverse (nodup_keys_toRaw c)
  obtain ⟨v, hv⟩ : ∃ v, Assoc.get? name c.toRaw = some v :=
    Option.isSome_iff_exists.mp (Assoc.isSome_get?.mpr hn)
  simp only [prevailing?, mentioned?, findSome?_spelled?_cons, List.findSome?_nil, Option.or_none,
    hname, hother, hc, hv, Option.none_or]
  by_cases ho : otherSpelling name = name
  · rw [ho, hc, hv]
    cases spelled? name overrides <;> rfl
  · have hnone : spelled? (otherSpelling name) c.toRaw = none :=
      Options.spelled?_eq_none (otherSpelling_notMem_names hn ho)
    rw [hnone, Option.or_none, Option.or_assoc, Option.or_assoc, Option.some_or, Option.or_assoc]

/-- What the overrides mention has their value, and all else the value that it had. -/
structure Overlaid (c : Options) (entries overrides : RawOptions) (o : Options) : Prop where
  options : ∀ name ∈ names, Assoc.get? name o.toRaw =
    (mentioned? name overrides).or (Assoc.get? name c.toRaw)
  custom : ∃ given kept, (customOf overrides).toMappingOrEmpty = .ok given ∧
    o.custom.toMappingOrEmpty = .ok kept ∧ ∀ key, Assoc.get? key kept =
      (unknown? key overrides).or ((spelled? key entries).or (Assoc.get? key given))

/-- The control file is a text if it is given, and custom entries are a mapping. -/
structure Readable (overrides : RawOptions) : Prop where
  control : ∀ v, spelled? "control" overrides = some v → v.isNull ∨ v.asText?.isSome
  custom : ∃ given, (customOf overrides).toMappingOrEmpty = .ok given

theorem customOf_layered : customOf (layered c entries overrides) =
    ((spelled? "custom" overrides).or (spelled? "custom" entries)).getD (.object []) := by
  rw [customOf, spelled?_layered (by decide)]

theorem unknown?_layered (key : String) : unknown? key (layered c entries overrides) =
    (unknown? key overrides).or (unknown? key entries) := by
  unfold unknown?
  split
  · rfl
  · next h => exact spelled?_layered fun hk => h (List.mem_cons_of_mem _
      ((canonicalName_of_mem_names hk).symm ▸ hk))

theorem Unmistakable.customOf_layered (h : Unmistakable entries) :
    customOf (layered c entries overrides) = customOf overrides := by
  rw [Options.customOf_layered, h.spelled?_eq_none spellsOption_custom, Option.or_none, customOf]

theorem Unmistakable.unknown?_eq (h : Unmistakable entries) (key : String) :
    unknown? key entries = spelled? key entries := by
  unfold unknown?
  split
  · next hk => exact (h.spelled?_eq_none hk).symm
  · rfl

theorem overlaid_of_unmistakable (h : Unmistakable entries) (hr : Readable overrides)
    (ho : ofRaw (layered c entries overrides) = .ok o) : Overlaid c entries overrides o where
  options name hn := (prevailing_of_layered ho hn).trans (h.prevailing?_eq hn)
  custom := by
    obtain ⟨given, hg⟩ := hr.custom
    obtain ⟨kept, hk, hkept⟩ := get?_custom_ofRaw ho (h.customOf_layered.symm ▸ hg)
    refine ⟨given, kept, hg, hk, fun key => ?_⟩
    rw [hkept, unknown?_layered, h.unknown?_eq, Option.or_assoc]

theorem unmistakable_of_overlaid (hc : "custom" ∉ Assoc.keys overrides)
    (ho : ofRaw (layered c entries overrides) = .ok o) (h : Overlaid c entries overrides o) :
    Unmistakable entries := by
  obtain ⟨given, kept, hg, hk, hkept⟩ := h.custom
  have hnone := spelled?_eq_none hc
  rw [customOf, hnone] at hg
  cases hg
  obtain ⟨poured, hp⟩ := exists_given_of_ofRaw ho hk
  obtain ⟨kept', hk', hkept'⟩ := get?_custom_ofRaw ho hp
  cases hk.symm.trans hk'
  rw [customOf_layered, hnone, Option.none_or] at hp
  have same {key : String} (hs : SpellsOption key) :
      Assoc.get? key poured = spelled? key entries := by
    have := (hkept' key).symm.trans (hkept key)
    simpa [unknown?, hs] using this
  intro key hmem hs
  have hsome : (spelled? key entries).isSome := by
    rw [spelled?, Assoc.isSome_get?]
    simpa [Assoc.keys] using hmem
  -- What is kept under the key can only stand in the entry for all custom entries, and this one
  -- would have to stand in itself.
  cases hx : spelled? "custom" entries with
  | none =>
    rw [hx] at hp
    cases hp
    rw [← same hs] at hsome
    cases hsome
  | some v =>
    rw [hx] at hp
    exact ne_of_toMappingOrEmpty hp ((same spellsOption_custom).trans hx) rfl

theorem checkControl_eq_ok {v : Value} :
    (∃ r, checkControl files v = .ok r) ↔ v.isNull ∨ v.asText?.isSome := by
  unfold checkControl
  cases v with
  | null => simp [Value.isNull]
  | text s => simp [Value.isNull, Value.asText?, pathOf, pure, bind, Except.bind, Except.pure]
  | bool | int | decimal | list | object =>
    simp [Value.isNull, Value.asText?, pathOf, bind, Except.bind]

theorem control_of_load (h : load files custom configFile args = .ok o) :
    o.control.isNull ∨ o.control.asText?.isSome := by
  obtain ⟨r, hr, -⟩ := exceptBind_eq_ok.mp (rejections_of_load h)
  exact checkControl_eq_ok.mp ⟨r, hr⟩

theorem exists_configuration_of_validated (hc : o.control.isNull ∨ o.control.asText?.isSome)
    (h : validated files o = .error f) : ∃ cause, f = .configuration cause := by
  obtain ⟨r, hr⟩ : ∃ r, checkControl files o.control = .ok r := checkControl_eq_ok.mpr hc
  obtain ⟨causes, hcauses⟩ : ∃ causes, o.rejections files = .ok causes := by
    rw [rejections, hr]
    exact ⟨_, rfl⟩
  rw [validated, hcauses] at h
  cases causes with
  | nil => cases h
  | cons cause causes => exact ⟨_, (Except.error.inj h).symm⟩

theorem control_of_layered (hc : c.control.isNull ∨ c.control.asText?.isSome)
    (h : Unmistakable entries) (hr : Readable overrides)
    (ho : ofRaw (layered c entries overrides) = .ok o) :
    o.control.isNull ∨ o.control.asText?.isSome := by
  have hname : "control" ∈ names := by decide
  have hcontrol : some o.control = (mentioned? "control" overrides).or (some c.control) :=
    (prevailing_of_layered ho hname).trans (h.prevailing?_eq hname)
  have hm : mentioned? "control" overrides = spelled? "control" overrides := Option.or_self
  rw [hm] at hcontrol
  cases hv : spelled? "control" overrides with
  | none =>
    rw [hv] at hcontrol
    exact Option.some.inj hcontrol ▸ hc
  | some v =>
    rw [hv] at hcontrol
    exact Option.some.inj hcontrol ▸ hr.control v hv

/-- Readable overrides are applied unless a value is invalid. -/
theorem exists_configuration_of_build (hc : c.custom.toMapping = .ok entries) (ho : overrides ≠ [])
    (hcontrol : c.control.isNull ∨ c.control.asText?.isSome) (h : Unmistakable entries)
    (hr : Readable overrides) (hf : build files (.built c) overrides = .error f) :
    ∃ cause, f = .configuration cause := by
  rw [build_built_eq hc ho] at hf
  cases hraw : ofRaw (layered c entries overrides) with
  | error e =>
    obtain ⟨given, hg⟩ := hr.custom
    have := ofRaw_eq_error hraw
    rw [h.customOf_layered, hg] at this
    cases this
  | ok o =>
    rw [hraw] at hf
    exact exists_configuration_of_validated (control_of_layered hcontrol h hr hraw) hf

theorem ofRaw_of_build (hc : c.custom.toMapping = .ok entries) (ho : overrides ≠ [])
    (h : build files (.built c) overrides = .ok o) : ofRaw (layered c entries overrides) = .ok o := by
  rw [build_built_eq hc ho] at h
  obtain ⟨o', ho', h⟩ := exceptBind_eq_ok.mp h
  obtain ⟨-, rfl⟩ := validated_eq_ok.mp h
  exact mapError_eq_ok.mp ho'

theorem unmistakable_of_load {sources : List RawOptions}
    (h : load files custom configFile args = .ok c)
    (hs : loadSources files custom configFile args = .ok sources)
    (hc : ∀ source ∈ sources, "custom" ∉ Assoc.keys source) :
    ∃ entries, c.custom.toMapping = .ok entries ∧ Unmistakable entries := by
  obtain ⟨entries, tokens, file, he, ht, hf, hraw, -⟩ := load_eq_ok h
  rw [loadSources, he, ht, hf] at hs
  cases hs
  simp only [List.forall_mem_cons] at hc
  have hgiven : customOf (Assoc.merge (Assoc.merge defaults file) (Assoc.merge entries tokens)) =
      .object [] := by
    rw [customOf, spelled?_eq_none, Option.getD_none]
    simp only [Assoc.mem_keys_merge, not_or]
    exact ⟨⟨by decide, hc.2.2.1⟩, hc.2.1, hc.1⟩
  obtain ⟨kept, hk⟩ := custom_ofRaw_eq_object hraw hgiven
  refine ⟨kept, by rw [hk]; rfl, fun key hmem hspell => ?_⟩
  obtain ⟨kept', hk', hkept⟩ := get?_custom_ofRaw hraw (hgiven ▸ toMappingOrEmpty_object [])
  rw [hk, toMappingOrEmpty_object] at hk'
  cases hk'
  have hsome := Assoc.isSome_get?.mpr hmem
  rw [hkept, unknown?, if_pos hspell] at hsome
  cases hsome

/-- Overrides change nothing but what they name, unless a custom entry is spelled like an option. -/
theorem overlaid_of_build (files : FileTree) (custom configFile args : Value) (c : Options)
    (h : load files custom configFile args = .ok c) :
    (∀ sources, loadSources files custom configFile args = .ok sources →
      (∀ source ∈ sources, "custom" ∉ Assoc.keys source) →
        ∃ entries, c.custom.toMapping = .ok entries ∧ Unmistakable entries) ∧
    ∀ entries overrides, c.custom.toMapping = .ok entries → overrides ≠ [] → Readable overrides →
      (Unmistakable entries → ∀ f, build files (.built c) overrides = .error f →
        ∃ cause, f = .configuration cause) ∧
      ∀ o, build files (.built c) overrides = .ok o →
        (Unmistakable entries → Overlaid c entries overrides o) ∧
        ("custom" ∉ Assoc.keys overrides → Overlaid c entries overrides o →
          Unmistakable entries) := by
  refine ⟨fun _ hs hc => unmistakable_of_load h hs hc, fun entries overrides hc ho hr => ?_⟩
  have hcontrol := control_of_load h
  refine ⟨fun hu f hf => exists_configuration_of_build hc ho hcontrol hu hr hf, fun o hb => ?_⟩
  have hraw := ofRaw_of_build hc ho hb
  exact ⟨fun hu => overlaid_of_unmistakable hu hr hraw,
    fun hn => unmistakable_of_overlaid hn hraw⟩

def teamEntries : Value := .object [("team", .text "core"), ("plural", .bool true)]

def ownerOverrides : RawOptions := [("maxSuffix", .int 7), ("owner", .text "docs")]

theorem overlaid_of_team_build : ∃ c entries o,
    load [] teamEntries .null .null = .ok c ∧ build [] (.built c) ownerOverrides = .ok o ∧
      Overlaid c entries ownerOverrides o ∧ o.maxSuffix.asInt? = some 7 ∧
      o.plural.asBool? = some true ∧ (o.custom.member? "team").bind Value.asText? = some "core" ∧
      (o.custom.member? "owner").bind Value.asText? = some "docs" := by
  have h : ((load [] teamEntries .null .null).toOption.any fun c =>
      (build [] (.built c) ownerOverrides).toOption.any fun o =>
        o.maxSuffix.asInt? = some 7 ∧ o.plural.asBool? = some true ∧
        (o.custom.member? "team").bind Value.asText? = some "core" ∧
        (o.custom.member? "owner").bind Value.asText? = some "docs") = true := by decide +kernel
  obtain ⟨c, hc, h⟩ := (Option.any_eq_true _ _).mp h
  obtain ⟨o, ho, hv⟩ := (Option.any_eq_true _ _).mp h
  have hc := toOption_eq_some.mp hc
  have ho := toOption_eq_some.mp ho
  have hload := overlaid_of_build [] teamEntries .null .null c hc
  obtain ⟨entries, he, hu⟩ := hload.1 [[], [("team", .text "core"), ("plural", .bool true)], []] rfl
    (by simp [Assoc.keys])
  have hr : Readable ownerOverrides := ⟨fun _ hv => (by cases hv), [], rfl⟩
  exact ⟨c, entries, o, hc, ho,
    ((hload.2 entries ownerOverrides he (List.cons_ne_nil _ _) hr).2 o ho).1 hu, of_decide_eq_true hv⟩

/-- Custom entries given as a whole, one of them spelled like an option. -/
def suffixEntries : Value := .object [("custom", .object [("maxSuffix", .int 5)])]

/-- So overrides need not prevail, nor leave the rest alone. -/
theorem override_overruled : ¬ ∀ (files : FileTree) (custom configFile args : Value) (c o : Options)
    (entries overrides : RawOptions), Keyed custom → load files custom configFile args = .ok c →
      c.custom.toMapping = .ok entries → overrides ≠ [] → (Assoc.keys overrides).Nodup →
      "custom" ∉ Assoc.keys overrides → build files (.built c) overrides = .ok o →
        Overlaid c entries overrides o := by
  intro claim
  have h : ((load [] suffixEntries .null .null).toOption.any fun c =>
      c.custom.toMapping.toOption.any fun entries =>
        (build [] (.built c) [("max_suffix", .int 7)]).toOption.any fun o =>
          o.maxSuffix.asInt? ≠ some 7) = true := by decide +kernel
  obtain ⟨c, hc, h⟩ := (Option.any_eq_true _ _).mp h
  obtain ⟨entries, he, h⟩ := (Option.any_eq_true _ _).mp h
  obtain ⟨o, ho, h⟩ := (Option.any_eq_true _ _).mp h
  have hover := claim [] suffixEntries .null .null c o entries [("max_suffix", .int 7)]
    (by rintro _ ⟨⟩; exact List.nodup_singleton _) (toOption_eq_some.mp hc)
    (toOption_eq_some.mp he) (List.cons_ne_nil _ _) (List.nodup_singleton _) (by decide)
    (toOption_eq_some.mp ho)
  have hmax : some o.maxSuffix = some (.int 7) := hover.options "max_suffix" (by decide)
  refine of_decide_eq_true h ?_
  rw [Option.some.inj hmax]
  rfl

end Override
end Enfold.Options
