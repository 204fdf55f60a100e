import Enfold.Options.Load
import Enfold.Proofs.Assoc
import Enfold.Proofs.Except

/-! # Which source an option comes from

Two of the options can be spelled in two ways. The sources are merged key by key before the
spellings are told apart, and the built-in defaults come first with the options under their own
names. So an option has the value of the highest source that uses the other spelling, and only if
none does, of the highest that uses its name.
-/

namespace Enfold.Options

def names : List String := Assoc.keys ({} : Options).toRaw

/-- The second spelling of an option, or its name again if there is none. -/
def otherSpelling (name : String) : String :=
  if name = "collection_interface" then "collectionInterface"
  else if name = "max_suffix" then "maxSuffix"
  else name

def spelled? (key : String) (source : RawOptions) : Option Value := Assoc.get? key source.reverse

def mentioned? (name : String) (source : RawOptions) : Option Value :=
  (spelled? (otherSpelling name) source).or (spelled? name source)

def builtIn? (name : String) : Option Value := Assoc.get? name ({} : Options).toRaw

/-- What the highest source says that mentions an option, else the default. -/
def highest? (name : String) (sources : List RawOptions) : Option Value :=
  (sources.findSome? (mentioned? name)).or (builtIn? name)

/-- What the highest source says by the second spelling, else by the name, else the default. -/
def prevailing? (name : String) (sources : List RawOptions) : Option Value :=
  ((sources.findSome? (spelled? (otherSpelling name))).or (sources.findSome? (spelled? name))).or
    (builtIn? name)

/-- No source with the name alone stands above one with the other spelling. -/
def Consistent (name : String) (sources : List RawOptions) : Prop :=
  sources.Pairwise fun upper lower => (spelled? name upper).isSome →
    (spelled? (otherSpelling name) lower).isSome → (spelled? (otherSpelling name) upper).isSome

def fileEntries (files : FileTree) (configFile : Value) : Except Failure RawOptions :=
  if configFile.isTruthy then do
    let p ← (pathOf configFile).mapError .misuse
    (readFile files p).mapError .configuration
  else .ok []

def commandLine (args : Value) : Except Failure RawOptions :=
  if args.isTruthy then tokensOf args else .ok []

/-- The sources that options are loaded from, highest first. -/
def loadSources (files : FileTree) (custom configFile args : Value) :
    Except Failure (List RawOptions) := do
  let entries ← custom.toMappingOrEmpty.mapError .misuse
  let tokens ← commandLine args
  let file ← fileEntries files configFile
  return [tokens, entries, file]

def overrideSources (o : Options) (overrides : RawOptions) : Except Failure (List RawOptions) :=
  if overrides.isEmpty then .ok [o.toRaw] else do
    let custom ← o.custom.toMapping.mapError .misuse
    return [overrides, custom, o.toRaw]

/-- The sources that options are built from, highest first. -/
def buildSources (files : FileTree) (given : Given) (overrides : RawOptions) :
    Except Failure (List RawOptions) :=
  match given with
  | .built o => overrideSources o overrides
  | .value (.text path) => do return [overrides, ← fileEntries files (.text path)]
  | .value (.list tokens) => do
    let o ← load files .null .null (.list tokens)
    overrideSources o overrides
  | .value (.object entries) => .ok [overrides, entries]
  | .value .null => .ok [overrides]
  | .value v => .error (.misuse (.optionsKind v.kindName))

/-! ### Entries, told apart -/

/-- Entries under the names of the options that they spell. -/
def canonical (entries : List (String × Value)) : List (String × Value) :=
  entries.map fun e => (canonicalName e.1, e.2)

/-- An entry told apart: it sets an option or is kept as a custom one. -/
def tellApart (acc : Options × RawOptions) (e : String × Value) : Options × RawOptions :=
  match acc.1.set? (canonicalName e.1) e.2 with
  | some o => (o, acc.2)
  | none => (acc.1, Assoc.put e.1 e.2 acc.2)

theorem canonical_cons (e : String × Value) (entries : List (String × Value)) :
    canonical (e :: entries) = (canonicalName e.1, e.2) :: canonical entries := rfl

theorem mem_names {name : String} : name ∈ names ↔ name = "collection" ∨
    name = "collection_interface" ∨ name = "instantiate" ∨ name = "plural" ∨ name = "nested" ∨
    name = "max_suffix" ∨ name = "control" ∨ name = "summary" := by
  simp [names, toRaw, Assoc.keys]

theorem canonicalName_eq_iff {name key : String} (h : name ∈ names) :
    canonicalName key = name ↔ key = name ∨ key = otherSpelling name := by
  unfold canonicalName otherSpelling
  rcases mem_names.mp h with rfl | rfl | rfl | rfl | rfl | rfl | rfl | rfl <;>
    split_ifs <;> simp_all

theorem canonicalName_of_mem_defaults {key : String} (h : key ∈ Assoc.keys defaults) :
    canonicalName key = key := by
  simp only [defaults, Assoc.keys, List.map_cons, List.map_nil, List.mem_cons, List.not_mem_nil,
    or_false] at h
  rcases h with rfl | rfl | rfl | rfl | rfl | rfl <;> rfl

theorem defaulted_of_otherSpelling_ne {name : String} (h : name ∈ names)
    (ho : otherSpelling name ≠ name) :
    name ∈ Assoc.keys defaults ∧ otherSpelling name ∉ Assoc.keys defaults := by
  rcases mem_names.mp h with rfl | rfl | rfl | rfl | rfl | rfl | rfl | rfl <;> first
    | exact absurd rfl ho
    | exact ⟨by decide, by decide⟩

theorem get?_defaults {name : String} (h : name ∈ names) :
    (Assoc.get? name defaults).or (builtIn? name) = builtIn? name := by
  rcases mem_names.mp h with rfl | rfl | rfl | rfl | rfl | rfl | rfl | rfl <;> rfl

theorem toRaw_of_set? {o o' : Options} {key : String} {v : Value} (h : o.set? key v = some o') :
    o'.toRaw = if key ∈ names then Assoc.put key v o.toRaw else o.toRaw := by
  unfold set? at h
  split at h <;> cases h <;> rfl

theorem notMem_names_of_set? {o : Options} {key : String} {v : Value} (h : o.set? key v = none) :
    key ∉ names := by
  intro hk
  rcases mem_names.mp hk with rfl | rfl | rfl | rfl | rfl | rfl | rfl | rfl <;> cases h

theorem get?_toRaw_tellApart (acc : Options × RawOptions) (e : String × Value) {name : String}
    (hn : name ∈ names) : Assoc.get? name (tellApart acc e).1.toRaw =
      if canonicalName e.1 = name then some e.2 else Assoc.get? name acc.1.toRaw := by
  have other (hk : canonicalName e.1 ∉ names) : canonicalName e.1 ≠ name := fun he =>
    hk (he.symm ▸ hn)
  unfold tellApart
  split
  · next o ho =>
    rw [toRaw_of_set? ho]
    split
    · exact Assoc.get?_put _ _ _
    · next hk => rw [if_neg (other hk)]
  · next ho => rw [if_neg (other (notMem_names_of_set? ho))]

theorem get?_toRaw_ofRaw {raw : RawOptions} {o : Options} (h : ofRaw raw = .ok o) {name : String}
    (hn : name ∈ names) : Assoc.get? name o.toRaw =
      (Assoc.get? name (canonical raw).reverse).or (builtIn? name) := by
  have told (acc : Options × RawOptions) : Assoc.get? name (raw.foldl tellApart acc).1.toRaw =
      (Assoc.get? name (canonical raw).reverse).or (Assoc.get? name acc.1.toRaw) := by
    clear h
    induction raw generalizing acc with
    | nil => rfl
    | cons e raw ih =>
      rw [List.foldl_cons, ih, get?_toRaw_tellApart acc e hn, canonical_cons,
        Assoc.get?_reverse_cons, Option.or_assoc]
      split <;> rfl
  have hall := told ({}, [])
  change (if (raw.foldl tellApart ({}, [])).2.isEmpty then _ else _) = Except.ok o at h
  -- What is left over only adds to the custom entries.
  split at h
  · cases h
    exact hall
  · obtain ⟨custom, -, h⟩ := exceptBind_eq_ok.mp h
    cases h
    exact hall

theorem get?_canonical_reverse {entries : RawOptions} {name key : String}
    (hn : (Assoc.keys entries).Nodup)
    (h : ∀ k ∈ Assoc.keys entries, canonicalName k = name ↔ k = key) :
    Assoc.get? name (canonical entries).reverse = Assoc.get? key entries := by
  rw [← Assoc.get?_reverse hn]
  clear hn
  induction entries with
  | nil => rfl
  | cons e entries ih =>
    rw [canonical_cons, Assoc.get?_reverse_cons, Assoc.get?_reverse_cons,
      ih fun k hk => h k (List.mem_cons_of_mem _ hk)]
    simp only [h e.1 List.mem_cons_self]

theorem get?_canonical_of_defaults_first {raw : RawOptions} (hn : (Assoc.keys raw).Nodup)
    (hd : Assoc.keys defaults <+: Assoc.keys raw) {name : String} (h : name ∈ names) :
    Assoc.get? name (canonical raw).reverse =
      (Assoc.get? (otherSpelling name) raw).or (Assoc.get? name raw) := by
  obtain ⟨rest, hrest⟩ := hd
  obtain ⟨first, later, rfl, hfirst, rfl⟩ := List.map_eq_append_iff.mp hrest.symm
  obtain ⟨hnf, hnl, hdisjoint⟩ := List.nodup_append.mp (hrest ▸ hn)
  change Assoc.keys first = _ at hfirst
  rw [← hfirst] at hnf hdisjoint
  have absent (hk : name ∈ Assoc.keys first) : name ∉ Assoc.keys later := fun hl =>
    hdisjoint name hk name hl rfl
  have hf : Assoc.get? name (canonical first).reverse = Assoc.get? name first :=
    get?_canonical_reverse hnf fun k hk => by
      rw [canonicalName_of_mem_defaults (hfirst ▸ hk)]
  have hc : canonical (first ++ later) = canonical first ++ canonical later := List.map_append
  rw [hc, List.reverse_append, Assoc.get?_append, hf, Assoc.get?_append, Assoc.get?_append]
  by_cases ho : otherSpelling name = name
  · have hl : Assoc.get? name (canonical later).reverse = Assoc.get? name later :=
      get?_canonical_reverse hnl fun k _ => by simp [canonicalName_eq_iff h, ho]
    rw [hl, ho]
    by_cases hk : name ∈ Assoc.keys first
    · simp [Assoc.get?_eq_none (absent hk)]
    · simp [Assoc.get?_eq_none hk]
  · obtain ⟨hk, hko⟩ := defaulted_of_otherSpelling_ne h ho
    rw [← hfirst] at hk hko
    have hl : Assoc.get? name (canonical later).reverse =
        Assoc.get? (otherSpelling name) later :=
      get?_canonical_reverse hnl fun k hl => by
        have hne : k ≠ name := fun hkn => absent hk (hkn ▸ hl)
        rw [canonicalName_eq_iff h, or_iff_right hne]
    rw [hl, Assoc.get?_eq_none hko, Assoc.get?_eq_none (absent hk), Option.none_or,
      Option.or_none]

/-! ### Layers -/

theorem findSome?_spelled?_cons (key : String) (source : RawOptions)
    (sources : List RawOptions) : (source :: sources).findSome? (spelled? key) =
      (spelled? key source).or (sources.findSome? (spelled? key)) := by
  rw [List.findSome?_cons]
  cases spelled? key source <;> rfl

theorem spelled?_merge {key : String} {m later : RawOptions} (h : (Assoc.keys m).Nodup) :
    spelled? key (Assoc.merge m later) = (spelled? key later).or (spelled? key m) := by
  unfold spelled?
  rw [Assoc.get?_reverse (Assoc.nodup_keys_merge h), Assoc.get?_reverse h, Assoc.get?_merge]

/-- Merged options have the values that prevail in their sources. -/
theorem get?_toRaw_of_layers {file upper : RawOptions} {sources : List RawOptions} {o : Options}
    (hs : ∀ key, (spelled? key upper).or (spelled? key file) = sources.findSome? (spelled? key))
    (h : ofRaw (Assoc.merge (Assoc.merge defaults file) upper) = .ok o) {name : String}
    (hn : name ∈ names) : Assoc.get? name o.toRaw = prevailing? name sources := by
  have hd : (Assoc.keys defaults).Nodup := by decide
  have hm : (Assoc.keys (Assoc.merge (Assoc.merge defaults file) upper)).Nodup :=
    Assoc.nodup_keys_merge (Assoc.nodup_keys_merge hd)
  have hfirst : Assoc.keys defaults <+: Assoc.keys (Assoc.merge (Assoc.merge defaults file) upper) :=
    (Assoc.keys_prefix_keys_merge file).trans (Assoc.keys_prefix_keys_merge upper)
  have entry (key : String) : Assoc.get? key (Assoc.merge (Assoc.merge defaults file) upper) =
      (sources.findSome? (spelled? key)).or (Assoc.get? key defaults) := by
    rw [Assoc.get?_merge, Assoc.get?_merge, ← Option.or_assoc, ← hs key]
    rfl
  rw [get?_toRaw_ofRaw h hn, get?_canonical_of_defaults_first hm hfirst hn, entry, entry,
    prevailing?]
  by_cases ho : otherSpelling name = name
  · rw [ho, Option.or_self, Option.or_self, Option.or_assoc, get?_defaults hn]
  · rw [Assoc.get?_eq_none (defaulted_of_otherSpelling_ne hn ho).2, Option.or_none,
      ← Option.or_assoc, Option.or_assoc, get?_defaults hn]

/-- Where the spellings do not clash, what prevails comes from the highest source. -/
theorem prevailing?_eq_highest? {name : String} {sources : List RawOptions}
    (h : Consistent name sources) : prevailing? name sources = highest? name sources := by
  unfold prevailing? highest?
  congr 1
  induction sources with
  | nil => rfl
  | cons source below ih =>
    obtain ⟨hsource, hbelow⟩ := List.pairwise_cons.mp h
    rw [List.findSome?_cons, List.findSome?_cons, List.findSome?_cons, mentioned?, ← ih hbelow]
    cases ho : spelled? (otherSpelling name) source with
    | some v => rfl
    | none =>
      cases hk : spelled? name source with
      | none => rfl
      | some v =>
        -- No source below uses the second spelling, or this one would.
        have hnone : below.findSome? (spelled? (otherSpelling name)) = none := by
          refine List.findSome?_eq_none_iff.mpr fun lower hl => ?_
          have himp := hsource lower hl
          rw [hk, ho] at himp
          simpa using himp rfl
        simp [hnone]

/-- Options have the values of the highest sources, unless the spellings clash. -/
def ComeFrom (o : Options) (sources : List RawOptions) : Prop :=
  ∀ name ∈ names, Assoc.get? name o.toRaw = prevailing? name sources ∧
    (Consistent name sources → Assoc.get? name o.toRaw = highest? name sources)

theorem comeFrom_of_prevailing {o : Options} {sources : List RawOptions}
    (h : ∀ name ∈ names, Assoc.get? name o.toRaw = prevailing? name sources) :
    o.ComeFrom sources := fun name hn =>
  ⟨h name hn, fun hc => (h name hn).trans (prevailing?_eq_highest? hc)⟩

/-! ### Loading and building -/

section Load

variable {files : FileTree} {custom configFile args : Value} {o b : Options}
  {overrides : RawOptions} {given : Given}

def Keyed (v : Value) : Prop := ∀ members, v = .object members → (Assoc.keys members).Nodup

theorem nodup_keys_of_toMappingOrEmpty {v : Value} {entries : RawOptions} (hv : Keyed v)
    (h : v.toMappingOrEmpty = .ok entries) : (Assoc.keys entries).Nodup := by
  unfold Value.toMappingOrEmpty at h
  split at h
  · unfold Value.toMapping at h
    split at h
    · cases h
      exact hv _ rfl
    · split at h
      · cases h
      · obtain ⟨pairs, -, rfl⟩ := exceptMap_eq_ok.mp h
        exact Assoc.nodup_keys_merge List.nodup_nil
  · cases h
    exact List.nodup_nil

theorem lowerLayers_eq_ok {lower : RawOptions} : lowerLayers files configFile = .ok lower ↔
    ∃ file, fileEntries files configFile = .ok file ∧ Assoc.merge defaults file = lower := by
  unfold lowerLayers fileEntries
  split
  · simp only [exceptBind_eq_ok, exceptPure_eq_ok]
    constructor
    · rintro ⟨p, hp, file, hf, rfl⟩
      exact ⟨file, ⟨p, hp, hf⟩, rfl⟩
    · rintro ⟨file, ⟨p, hp, hf⟩, rfl⟩
      exact ⟨p, hp, file, hf, rfl⟩
  · constructor
    · intro h
      cases h
      exact ⟨[], rfl, rfl⟩
    · rintro ⟨file, hf, rfl⟩
      cases hf
      rfl

theorem validated_eq_ok : validated files b = .ok o ↔ b.rejections files = .ok [] ∧ o = b := by
  unfold validated
  rw [exceptBind_eq_ok]
  constructor
  · rintro ⟨causes, hr, h⟩
    cases causes with
    | nil => exact ⟨mapError_eq_ok.mp hr, (Except.ok.inj h).symm⟩
    | cons cause causes => cases h
  · rintro ⟨hr, rfl⟩
    exact ⟨[], mapError_eq_ok.mpr hr, rfl⟩

theorem load_eq_ok (h : load files custom configFile args = .ok o) : ∃ entries tokens file,
    custom.toMappingOrEmpty = .ok entries ∧ commandLine args = .ok tokens ∧
      fileEntries files configFile = .ok file ∧
      ofRaw (Assoc.merge (Assoc.merge defaults file) (Assoc.merge entries tokens)) = .ok o ∧
      o.rejections files = .ok [] := by
  have merged {entries tokens : RawOptions} (h : (do
      let lower ← lowerLayers files configFile
      let o ← (ofRaw (Assoc.merge lower (Assoc.merge entries tokens))).mapError .misuse
      validated files o) = Except.ok o) : ∃ file, fileEntries files configFile = .ok file ∧
        ofRaw (Assoc.merge (Assoc.merge defaults file) (Assoc.merge entries tokens)) = .ok o ∧
        o.rejections files = .ok [] := by
    obtain ⟨lower, hl, h⟩ := exceptBind_eq_ok.mp h
    obtain ⟨file, hf, rfl⟩ := lowerLayers_eq_ok.mp hl
    obtain ⟨o', ho, h⟩ := exceptBind_eq_ok.mp h
    obtain ⟨hr, rfl⟩ := validated_eq_ok.mp h
    exact ⟨file, hf, mapError_eq_ok.mp ho, hr⟩
  obtain ⟨entries, he, h⟩ := exceptBind_eq_ok.mp h
  have he := mapError_eq_ok.mp he
  dsimp only at h
  split at h
  · next hargs =>
    obtain ⟨tokens, ht, h⟩ := exceptBind_eq_ok.mp h
    obtain ⟨file, hf, h⟩ := merged h
    exact ⟨entries, tokens, file, he, by rw [commandLine, if_pos hargs, ht], hf, h⟩
  · next hargs =>
    obtain ⟨file, hf, h⟩ := merged h
    exact ⟨entries, [], file, he, by rw [commandLine, if_neg hargs], hf, h⟩

theorem rejections_of_load (h : load files custom configFile args = .ok o) :
    o.rejections files = .ok [] := by
  obtain ⟨entries, tokens, file, -, -, -, -, hr⟩ := load_eq_ok h
  exact hr

/-- Loaded options come from the command line, the custom entries and the configuration file. -/
theorem comeFrom_of_load (hc : Keyed custom) (h : load files custom configFile args = .ok o) :
    ∃ sources, loadSources files custom configFile args = .ok sources ∧ o.ComeFrom sources := by
  obtain ⟨entries, tokens, file, he, ht, hf, h, -⟩ := load_eq_ok h
  refine ⟨[tokens, entries, file], ?_, comeFrom_of_prevailing fun name hn => ?_⟩
  · rw [loadSources, he, ht, hf]
    rfl
  · refine get?_toRaw_of_layers (fun key => ?_) h hn
    rw [spelled?_merge (nodup_keys_of_toMappingOrEmpty hc he)]
    simp only [findSome?_spelled?_cons, List.findSome?_nil, Option.or_none, Option.or_assoc]

theorem ComeFrom.congr {sources sources' : List RawOptions} (h : o.ComeFrom sources)
    (hs : ∀ key, sources.findSome? (spelled? key) = sources'.findSome? (spelled? key)) :
    o.ComeFrom sources' :=
  comeFrom_of_prevailing fun name hn => by rw [(h name hn).1, prevailing?, prevailing?, hs, hs]

theorem toMappingOrEmpty_object (entries : RawOptions) :
    (Value.object entries).toMappingOrEmpty = .ok entries := by
  cases entries <;> rfl

theorem comeFrom_of_load_object {entries : RawOptions} (hn : (Assoc.keys entries).Nodup)
    (h : load files (.object entries) configFile .null = .ok o) :
    ∃ file, fileEntries files configFile = .ok file ∧ o.ComeFrom [entries, file] := by
  obtain ⟨sources, hs, hfrom⟩ := comeFrom_of_load (by rintro _ ⟨⟩; exact hn) h
  rw [loadSources, toMappingOrEmpty_object] at hs
  change (fileEntries files configFile >>= fun file => pure [[], entries, file]) = _ at hs
  obtain ⟨file, hf, hs⟩ := exceptBind_eq_ok.mp hs
  cases hs
  refine ⟨file, hf, hfrom.congr fun key => ?_⟩
  rw [findSome?_spelled?_cons]
  rfl

theorem comeFrom_of_load_mapping {entries : RawOptions} (hn : (Assoc.keys entries).Nodup)
    (h : load files (.object entries) .null .null = .ok o) : o.ComeFrom [entries] := by
  obtain ⟨file, hf, hfrom⟩ := comeFrom_of_load_object hn h
  cases hf
  exact hfrom.congr fun key => by simp [findSome?_spelled?_cons, spelled?]

theorem nodup_keys_toRaw (b : Options) : (Assoc.keys b.toRaw).Nodup := by
  change (["collection", "collection_interface", "instantiate", "plural", "nested", "max_suffix",
    "control", "summary"] : List String).Nodup
  decide

theorem comeFrom_toRaw (b : Options) : b.ComeFrom [b.toRaw] := by
  refine comeFrom_of_prevailing fun name hn => ?_
  rcases mem_names.mp hn with rfl | rfl | rfl | rfl | rfl | rfl | rfl | rfl <;> rfl

theorem comeFrom_of_override (h : override files b overrides = .ok o) :
    ∃ sources, overrideSources b overrides = .ok sources ∧ o.ComeFrom sources := by
  unfold override at h
  unfold overrideSources
  split at h
  · next he =>
    cases h
    exact ⟨_, if_pos he, comeFrom_toRaw o⟩
  · next he =>
    obtain ⟨custom, hc, h⟩ := exceptBind_eq_ok.mp h
    have hb := nodup_keys_toRaw b
    have hcb : (Assoc.keys (Assoc.merge b.toRaw custom)).Nodup := Assoc.nodup_keys_merge hb
    have hfrom := comeFrom_of_load_mapping (Assoc.nodup_keys_merge hcb) h
    refine ⟨[overrides, custom, b.toRaw], by rw [if_neg he, hc]; rfl, hfrom.congr fun key => ?_⟩
    simp only [findSome?_spelled?_cons, spelled?_merge hcb, spelled?_merge hb, Option.or_assoc]

theorem comeFrom_of_build (hg : ∀ entries, given = .value (.object entries) →
      (Assoc.keys entries).Nodup) (ho : (Assoc.keys overrides).Nodup)
    (h : build files given overrides = .ok o) :
    ∃ sources, buildSources files given overrides = .ok sources ∧ o.ComeFrom sources := by
  unfold build at h
  split at h
  · exact comeFrom_of_override h
  · next path =>
    obtain ⟨file, hf, hfrom⟩ := comeFrom_of_load_object ho h
    exact ⟨_, by rw [buildSources, hf]; rfl, hfrom⟩
  · next tokens =>
    obtain ⟨b, hb, h⟩ := exceptBind_eq_ok.mp h
    obtain ⟨sources, hs, hfrom⟩ := comeFrom_of_override h
    exact ⟨sources, by rw [buildSources, hb]; exact hs, hfrom⟩
  · next entries =>
    have hn := hg entries rfl
    refine ⟨_, rfl, (comeFrom_of_load_mapping (Assoc.nodup_keys_merge hn) h).congr fun key => ?_⟩
    simp only [findSome?_spelled?_cons, spelled?_merge hn, Option.or_assoc]
  · exact ⟨_, rfl, comeFrom_of_load_mapping ho h⟩
  · cases h

/-- An option has the value of the highest source, but its second spelling comes before its name. -/
theorem options_comeFrom_sources (files : FileTree) :
    (∀ custom configFile args o, Keyed custom → load files custom configFile args = .ok o →
      ∃ sources, loadSources files custom configFile args = .ok sources ∧ o.ComeFrom sources) ∧
    ∀ given overrides o, (∀ entries, given = .value (.object entries) →
        (Assoc.keys entries).Nodup) → (Assoc.keys overrides).Nodup →
      build files given overrides = .ok o →
        ∃ sources, buildSources files given overrides = .ok sources ∧ o.ComeFrom sources :=
  ⟨fun _ _ _ _ hc h => comeFrom_of_load hc h, fun _ _ _ hg ho h => comeFrom_of_build hg ho h⟩

def interfaceEntries : Value := .object [("collectionInterface", .text "Sequence")]

def interfaceTokens : Value := .list [.text "-Xxew:collectionInterface MutableSequence"]

theorem options_comeFrom_interface_sources :
    (∃ o sources, load [] interfaceEntries .null interfaceTokens = .ok o ∧
      loadSources [] interfaceEntries .null interfaceTokens = .ok sources ∧ o.ComeFrom sources ∧
      o.collectionInterface.asText? = some "Sequence") ∧
    ∃ o sources, build [] (.value interfaceEntries) [("collectionInterface", .text "Set")] = .ok o ∧
      buildSources [] (.value interfaceEntries) [("collectionInterface", .text "Set")] =
        .ok sources ∧ o.ComeFrom sources ∧ o.collectionInterface.asText? = some "Set" := by
  have keyed (v : Value) : (Assoc.keys [("collectionInterface", v)]).Nodup :=
    List.nodup_singleton _
  constructor
  · have h : ((load [] interfaceEntries .null interfaceTokens).toOption.any fun o =>
        o.collectionInterface.asText? = some "Sequence") = true := by decide +kernel
    obtain ⟨o, ho, hv⟩ := (Option.any_eq_true _ _).mp h
    have ho := toOption_eq_some.mp ho
    obtain ⟨sources, hs, hfrom⟩ := (options_comeFrom_sources []).1 _ _ _ o
      (by rintro _ ⟨⟩; exact keyed _) ho
    exact ⟨o, sources, ho, hs, hfrom, of_decide_eq_true hv⟩
  · have h : ((build [] (.value interfaceEntries) [("collectionInterface", .text "Set")]).toOption.any
        fun o => o.collectionInterface.asText? = some "Set") = true := by decide +kernel
    obtain ⟨o, ho, hv⟩ := (Option.any_eq_true _ _).mp h
    have ho := toOption_eq_some.mp ho
    obtain ⟨sources, hs, hfrom⟩ := (options_comeFrom_sources []).2 _ _ o
      (by rintro _ ⟨⟩; exact keyed _) (keyed _) ho
    exact ⟨o, sources, ho, hs, hfrom, of_decide_eq_true hv⟩

/-- So an option need not come from the highest source that mentions it. -/
theorem higher_source_overruled : ¬ ∀ (files : FileTree) (custom configFile args : Value)
    (o : Options) (sources : List RawOptions), Keyed custom →
      load files custom configFile args = .ok o →
      loadSources files custom configFile args = .ok sources →
        ∀ name ∈ names, Assoc.get? name o.toRaw = highest? name sources := by
  intro claim
  have h : ((load [] interfaceEntries .null interfaceTokens).toOption.any fun o =>
      (loadSources [] interfaceEntries .null interfaceTokens).toOption.any fun sources =>
        (highest? "collection_interface" sources).map Value.asText? ≠
          some o.collectionInterface.asText?) = true := by decide +kernel
  obtain ⟨o, ho, h⟩ := (Option.any_eq_true _ _).mp h
  obtain ⟨sources, hs, h⟩ := (Option.any_eq_true _ _).mp h
  have hname := claim [] interfaceEntries .null interfaceTokens o sources
    (by rintro _ ⟨⟩; exact List.nodup_singleton _) (toOption_eq_some.mp ho)
    (toOption_eq_some.mp hs) "collection_interface" (by decide)
  refine of_decide_eq_true h ?_
  rw [← hname]
  rfl

end Load
end Enfold.Options
