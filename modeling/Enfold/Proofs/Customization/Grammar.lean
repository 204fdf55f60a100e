import Mathlib.Data.List.TakeWhile
import Enfold.Proofs.Customization.Decided
import Enfold.Proofs.Text.Parts

/-! # The grammar of control files

A line that is not empty without its comment has to be an entry: a path, a sign, and the settings for
what the path matches. Whatever the patterns with which a line is taken apart, it is read in one way
or refused.
-/

namespace Enfold.ControlFile

open Text (IsGap IsWord EndsWord Spaced)

variable {s r line path rest : List Char} {token : String} {e : ControlEntry} {ε : Type}
  {compile : Compiler ε}

/-! ### The sign between path and settings -/

/-- The sign comes next, after blanks if there are any, and then the rest. -/
def SignThen (s rest : List Char) : Prop :=
  ∃ gap sign, IsGap gap ∧ (sign = '=' ∨ sign = ':') ∧ s = gap ++ sign :: rest

theorem isBlank_sign {sign : Char} (h : sign = '=' ∨ sign = ':') :
    Text.isBlank sign = false ∧ isPlainPathChar sign = false := by
  rcases h with rfl | rfl <;> decide

theorem afterSign?_eq_some : afterSign? s = some rest ↔ SignThen s rest := by
  constructor
  · intro h
    unfold afterSign? at h
    split at h
    · next c r hs =>
      split at h
      · next hc =>
        cases h
        refine ⟨s.takeWhile Text.isBlank, c, fun b hb => List.mem_takeWhile_imp hb,
          by simpa using hc, ?_⟩
        rw [← hs, List.takeWhile_append_dropWhile]
      · cases h
    · cases h
  · rintro ⟨gap, sign, hg, hsign, rfl⟩
    rw [afterSign?, List.dropWhile_append_of_pos hg,
      List.dropWhile_cons_of_neg (by simp [(isBlank_sign hsign).1])]
    exact if_pos (by simpa using hsign)

def Closes (s : List Char) : Prop := ∃ rest, SignThen s rest

def NoneCloses (s : List Char) : Prop := ∀ a b, s = a ++ '/' :: b → ¬ Closes b

theorem isSome_afterSign? : (afterSign? s).isSome ↔ Closes s := by
  simp only [Option.isSome_iff_exists, afterSign?_eq_some, Closes]

theorem noneCloses_cons {c : Char} :
    NoneCloses (c :: s) ↔ (c = '/' → ¬ Closes s) ∧ NoneCloses s := by
  constructor
  · intro h
    refine ⟨?_, fun a b hs => h (c :: a) b (by rw [hs, List.cons_append])⟩
    rintro rfl
    exact h [] s rfl
  · rintro ⟨hc, hs⟩ a b h
    cases a with
    | nil =>
      obtain ⟨rfl, rfl⟩ := List.cons.inj h
      exact hc rfl
    | cons x a => exact hs a b (List.cons.inj h).2

theorem cutAtLastSlash?_eq_none : cutAtLastSlash? s = none ↔ NoneCloses s := by
  induction s with
  | nil => simp [cutAtLastSlash?, NoneCloses]
  | cons c r ih =>
    rw [noneCloses_cons, cutAtLastSlash?, ← ih, ← isSome_afterSign?]
    cases cutAtLastSlash? r with
    | some p => simp
    | none => by_cases hc : c = '/' <;> simp [hc]

theorem cutAtLastSlash?_eq_some {before after : List Char} :
    cutAtLastSlash? s = some (before, after) ↔
      s = before ++ '/' :: after ∧ Closes after ∧ NoneCloses after := by
  constructor
  · intro h
    induction s generalizing before with
    | nil => cases h
    | cons c r ih =>
      rw [cutAtLastSlash?] at h
      split at h
      · next p hp =>
        cases h
        obtain ⟨hr, hafter⟩ := ih hp
        exact ⟨by rw [hr, List.cons_append], hafter⟩
      · next hnone =>
        split at h
        · next hc =>
          cases h
          rw [Bool.and_eq_true, decide_eq_true_eq] at hc
          exact ⟨by rw [hc.1, List.nil_append], isSome_afterSign?.mp hc.2,
            cutAtLastSlash?_eq_none.mp hnone⟩
        · cases h
  · rintro ⟨rfl, hcloses, hnone⟩
    induction before with
    | nil =>
      rw [List.nil_append, cutAtLastSlash?, cutAtLastSlash?_eq_none.mpr hnone]
      exact if_pos (by simpa using isSome_afterSign?.mpr hcloses)
    | cons c before ih => rw [List.cons_append, cutAtLastSlash?, ih]

/-! ### Path and settings -/

/-- A line is a path, a sign and the rest; a pattern goes on to the last slash before a sign. -/
inductive Parts : List Char → List Char → List Char → Prop
  | pattern {body after rest : List Char} : body ≠ [] → SignThen after rest → NoneCloses after →
      Parts ('/' :: (body ++ '/' :: after)) ('/' :: (body ++ ['/'])) rest
  | word {path after rest : List Char} : path ≠ [] → (∀ c ∈ path, isPlainPathChar c = true) →
      SignThen after rest →
      (∀ body x, path ++ after = '/' :: (body ++ '/' :: x) → body ≠ [] → ¬ Closes x) →
      Parts (path ++ after) path rest

theorem SignThen.head?_not_plain (h : SignThen s rest) :
    ∀ c ∈ s.head?, isPlainPathChar c = false := by
  obtain ⟨gap, sign, hg, hsign, rfl⟩ := h
  cases gap with
  | nil =>
    rintro _ ⟨⟩
    exact (isBlank_sign hsign).2
  | cons b gap =>
    rintro _ ⟨⟩
    simp [isPlainPathChar, hg b List.mem_cons_self]

theorem takeWhile_append {p : Char → Bool} (hpath : ∀ c ∈ path, p c = true)
    (hs : ∀ c ∈ s.head?, p c = false) :
    (path ++ s).takeWhile p = path ∧ (path ++ s).dropWhile p = s := by
  rw [List.takeWhile_append_of_pos hpath, List.dropWhile_append_of_pos hpath]
  cases s with
  | nil => exact ⟨List.append_nil path, rfl⟩
  | cons c s =>
    have hc : ¬ p c = true := by simp [hs c rfl]
    rw [List.takeWhile_cons_of_neg hc, List.dropWhile_cons_of_neg hc, List.append_nil]
    exact ⟨rfl, rfl⟩

theorem splitPatternEntry?_eq_some : splitPatternEntry? line = some (path, rest) ↔
    ∃ body after, body ≠ [] ∧ SignThen after rest ∧ NoneCloses after ∧
      line = '/' :: (body ++ '/' :: after) ∧ path = '/' :: (body ++ ['/']) := by
  constructor
  · intro h
    unfold splitPatternEntry? at h
    split at h
    · next r =>
      split at h
      · next c body after hcut =>
        obtain ⟨tokens, htokens, heq⟩ := Option.map_eq_some_iff.mp h
        cases heq
        obtain ⟨hr, -, hnone⟩ := cutAtLastSlash?_eq_some.mp hcut
        exact ⟨c :: body, after, List.cons_ne_nil c body, afterSign?_eq_some.mp htokens, hnone,
          by rw [hr], rfl⟩
      · cases h
    · cases h
  · rintro ⟨body, after, hne, hsign, hnone, rfl, rfl⟩
    obtain ⟨c, body, rfl⟩ := List.exists_cons_of_ne_nil hne
    have hcut : cutAtLastSlash? (c :: body ++ '/' :: after) = some (c :: body, after) :=
      cutAtLastSlash?_eq_some.mpr ⟨rfl, ⟨rest, hsign⟩, hnone⟩
    simp only [ splitPatternEntry?, hcut, afterSign?_eq_some.mpr hsign, Option.map_some]
    rfl

theorem splitPatternEntry?_eq_none : splitPatternEntry? line = none ↔
    ∀ body x, line = '/' :: (body ++ '/' :: x) → body ≠ [] → ¬ Closes x := by
  constructor
  · rintro h body x rfl hbody hcloses
    cases hcut : cutAtLastSlash? (body ++ '/' :: x) with
    | none => exact cutAtLastSlash?_eq_none.mp hcut body x rfl hcloses
    | some p =>
      obtain ⟨before, after⟩ := p
      obtain ⟨heq, ⟨rest, hsign⟩, hnone⟩ := cutAtLastSlash?_eq_some.mp hcut
      have hbefore : before ≠ [] := by
        rintro rfl
        obtain ⟨c, body, rfl⟩ := List.exists_cons_of_ne_nil hbody
        exact hnone body x (List.cons.inj heq).2.symm hcloses
      rw [heq, splitPatternEntry?_eq_some.mpr ⟨before, after, hbefore, hsign, hnone, rfl, rfl⟩] at h
      cases h
  · refine fun hopen => Option.eq_none_iff_forall_ne_some.mpr fun p hp => ?_
    obtain ⟨body, after, hbody, hsign, -, heq, -⟩ := splitPatternEntry?_eq_some.mp hp
    exact hopen body after heq hbody ⟨_, hsign⟩

theorem splitPlainEntry?_eq_some : splitPlainEntry? line = some (path, rest) ↔
    ∃ after, path ≠ [] ∧ (∀ c ∈ path, isPlainPathChar c = true) ∧ SignThen after rest ∧
      line = path ++ after := by
  constructor
  · intro h
    unfold splitPlainEntry? at h
    dsimp only at h
    split at h
    · cases h
    · next hne =>
      obtain ⟨tokens, htokens, heq⟩ := Option.map_eq_some_iff.mp h
      cases heq
      exact ⟨line.dropWhile isPlainPathChar, by simpa using hne,
        fun c hc => List.mem_takeWhile_imp hc, afterSign?_eq_some.mp htokens,
        List.takeWhile_append_dropWhile.symm⟩
  · rintro ⟨after, hne, hplain, hsign, rfl⟩
    obtain ⟨htake, hdrop⟩ := takeWhile_append hplain hsign.head?_not_plain
    unfold splitPlainEntry?
    rw [htake, hdrop, afterSign?_eq_some.mpr hsign]
    exact if_neg (by simpa using hne)

/-- No line can be taken apart in two ways. -/
theorem splitEntry?_eq_some : splitEntry? line = some (path, rest) ↔ Parts line path rest := by
  constructor
  · intro h
    unfold splitEntry? at h
    cases hp : splitPatternEntry? line with
    | some p =>
      rw [hp] at h
      cases h
      obtain ⟨body, after, hne, hsign, hnone, rfl, rfl⟩ := splitPatternEntry?_eq_some.mp hp
      exact .pattern hne hsign hnone
    | none =>
      rw [hp] at h
      obtain ⟨after, hne, hplain, hsign, rfl⟩ := splitPlainEntry?_eq_some.mp h
      exact .word hne hplain hsign ( splitPatternEntry?_eq_none.mp hp)
  · intro h
    cases h with
    | pattern hne hsign hnone =>
      rw [ splitEntry?, splitPatternEntry?_eq_some.mpr ⟨_, _, hne, hsign, hnone, rfl, rfl⟩]
      rfl
    | word hne hplain hsign hopen =>
      rw [ splitEntry?, splitPatternEntry?_eq_none.mpr hopen]
      exact splitPlainEntry?_eq_some.mpr ⟨_, hne, hplain, hsign, rfl⟩

/-! ### Paths -/

/-- A path names a property or is a pattern, which loses its last character if it is not closed. -/
inductive NamesPath (compile : Compiler ε) : List Char → Option Matcher → Prop
  | property {path : List Char} : isPropertyPath path = true → NamesPath compile path none
  | pattern {body : List Char} {p : Matcher} : compile.matcher (String.ofList body) = .ok p →
      NamesPath compile ('/' :: (body ++ ['/'])) (some p)
  | unclosed {body : List Char} {p : Matcher} : body.getLast? ≠ some '/' →
      compile.matcher (String.ofList body.dropLast) = .ok p →
      NamesPath compile ('/' :: body) (some p)

theorem exists_start_of_isPropertyPath (h : isPropertyPath path = true) :
    ∃ c r, path = c :: r ∧ Text.isIdentifierStart c = true := by
  cases path with
  | nil => cases h
  | cons c r =>
    refine ⟨c, r, rfl, ?_⟩
    rw [isPropertyPath, Bool.and_eq_true, List.all_eq_true] at h
    have hfirst : ∃ part ∈ Text.splitAt '.' (c :: r), part = [] ∨ ∃ x, part = c :: x := by
      rw [Text.splitAt]
      split
      · exact ⟨[], List.mem_cons_self, Or.inl rfl⟩
      · cases Text.splitAt '.' r with
        | nil => exact ⟨[c], List.mem_cons_self, Or.inr ⟨[], rfl⟩⟩
        | cons part parts => exact ⟨c :: part, List.mem_cons_self, Or.inr ⟨part, rfl⟩⟩
    obtain ⟨part, hpart, hhead⟩ := hfirst
    have hsegment := h.2 part hpart
    rcases hhead with rfl | ⟨x, rfl⟩
    · cases hsegment
    · rw [isPathSegment, Bool.and_eq_true] at hsegment
      exact hsegment.1

theorem head?_of_isPropertyPath (h : isPropertyPath path = true) : path.head? ≠ some '/' := by
  obtain ⟨c, r, rfl, hc⟩ := exists_start_of_isPropertyPath h
  rintro ⟨⟩
  revert hc
  decide

theorem patternOf_eq_ok {pattern : Option Matcher} :
    patternOf compile path = .ok pattern ↔ NamesPath compile path pattern := by
  constructor
  · intro h
    unfold patternOf at h
    split at h
    · next hhead =>
      obtain ⟨body, rfl⟩ : ∃ body, path = '/' :: body := by
        cases path with
        | nil => cases hhead
        | cons c body =>
          cases hhead
          exact ⟨body, rfl⟩
      split at h
      · next p hp =>
        cases h
        rw [List.drop_succ_cons, List.drop_zero] at hp
        by_cases hlast : body.getLast? = some '/'
        · obtain ⟨body, rfl⟩ := List.getLast?_eq_some_iff.mp hlast
          rw [List.dropLast_concat] at hp
          exact .pattern hp
        · exact .unclosed hlast hp
      · cases h
      · cases h
    · split at h
      · next hpath =>
        cases h
        exact .property hpath
      · cases h
  · intro h
    cases h with
    | property hpath => rw [patternOf, if_neg (head?_of_isPropertyPath hpath), if_pos hpath]
    | pattern hp => simp [patternOf, hp]
    | unclosed _ hp => simp [patternOf, hp]

theorem matcher_eq_ok {body : String} {p : Matcher} :
    compile.matcher body = .ok p ↔ ∃ accepts, compile body = .ok accepts ∧ p = ⟨body, accepts⟩ := by
  rw [Compiler.matcher, exceptMap_eq_ok]
  simp only [eq_comm]

theorem matcher_eq_foreign {body : String} {x : ε} :
    compile.matcher body = .error (.foreign x) ↔ compile body = .error (.foreign x) := by
  rw [Compiler.matcher]
  cases compile body <;> simp [Except.map]

theorem patternOf_eq_inr {x : ε} : patternOf compile path = .error (.inr x) ↔
    ∃ body, path = '/' :: body ∧ compile (String.ofList body.dropLast) = .error (.foreign x) := by
  unfold patternOf
  cases path with
  | nil => simp only [List.head?_nil, reduceCtorEq, if_false]; split <;> simp
  | cons c body =>
    simp only [List.head?_cons, Option.some.injEq, List.drop_succ_cons, List.drop_zero,
      List.cons.injEq]
    by_cases hc : c = '/'
    · simp only [hc, if_true, true_and, exists_eq_left', ← matcher_eq_foreign]
      split <;> simp [*]
    · simp only [hc, if_false, false_and, exists_const]
      split <;> simp

/-! ### Settings -/

/-- A token stands for a flag, an identifier, a collection or a mode. -/
inductive Gives : String → Setting → Prop
  | flag {token : String} {x : Setting} : (token, x) ∈ flagTokens → Gives token x
  | className {name : String} : Text.isIdentifier name.toList = true →
      Gives ("class=" ++ name) (.className name)
  | fieldName {name : String} : Text.isIdentifier name.toList = true →
      Gives ("field=" ++ name) (.fieldName name)
  | collection {name : String} {c : Collection} : Collection.resolve name = .ok c →
      Gives ("collection=" ++ name) (.collection name)
  | instantiate {mode : String} {i : Instantiation} : Instantiation.resolve mode = .ok i →
      Gives ("instantiate=" ++ mode) (.instantiate mode)

theorem isGivenName_iff {name : String} (hb : ∀ c ∈ name.toList, Text.isBlank c = false) :
    isGivenName name = true ↔ Text.isIdentifier name.toList = true := by
  unfold isGivenName
  dsimp only
  rw [if_neg]
  intro hlast
  have hblank := hb _ (List.mem_of_getLast? hlast)
  exact absurd hblank (by decide)

theorem checked_eq_ok {x y : Setting} : x.checked = .ok y ↔ x.check = .ok () ∧ y = x := by
  rw [Setting.checked, exceptMap_eq_ok]
  constructor
  · rintro ⟨_, h, rfl⟩
    exact ⟨h, rfl⟩
  · rintro ⟨h, rfl⟩
    exact ⟨(), h, rfl⟩

theorem isBlank_of_mem_value {before value : String}
    (hb : ∀ c ∈ (before ++ value).toList, Text.isBlank c = false) :
    ∀ c ∈ value.toList, Text.isBlank c = false := fun c hc =>
  hb c (by rw [String.toList_append]; exact List.mem_append_right _ hc)

theorem setting_of_value (path key : String) {value : String} {make : String → Setting} {x : Setting}
    (hkey : Assoc.get? key valueTokens = some make) (hsign : '=' ∉ key.toList)
    (hne : value ≠ "") : setting path (key ++ "=" ++ value) = .ok x ↔
      (make value).check = .ok () ∧ x = make value := by
  have hcut : Text.cutAt '=' (key ++ "=" ++ value).toList = (key.toList, some value.toList) := by
    have : (key ++ "=" ++ value).toList = key.toList ++ '=' :: value.toList := by simp
    rw [this, Text.cutAt_append hsign]
  have hne : value.toList.isEmpty = false := by simpa using hne
  simp only [setting, hcut, String.ofList_toList, hkey, hne, Bool.false_eq_true, if_false]
  rw [mapError_eq_ok, checked_eq_ok]

theorem check_className {name : String} :
    (Setting.className name).check = .ok () ↔ isGivenName name = true := by
  rw [Setting.check, Setting.checkName]
  split <;> simp [*]

theorem check_fieldName {name : String} :
    (Setting.fieldName name).check = .ok () ↔ isGivenName name = true := by
  rw [Setting.check, Setting.checkName]
  split <;> simp [*]

theorem check_collection {name : String} : (Setting.collection name).check = .ok () ↔
    ∃ c, Collection.resolve (.text name) = .ok c := by
  rw [Setting.check, exceptMap_unit_eq_ok]
  simp only [mapError_eq_ok]

theorem check_instantiate {mode : String} : (Setting.instantiate mode).check = .ok () ↔
    ∃ i, Instantiation.resolve (.text mode) = .ok i := by
  rw [Setting.check, exceptMap_unit_eq_ok]
  simp only [mapError_eq_ok]

/-- A token without blanks is read as the setting that it stands for. -/
theorem setting_eq_ok {path : String} {x : Setting}
    (hb : ∀ c ∈ token.toList, Text.isBlank c = false) :
    setting path token = .ok x ↔ Gives token x := by
  constructor
  · intro h
    unfold setting at h
    split at h
    · split at h
      · next hflag =>
        cases h
        exact .flag (Assoc.mem_of_get? hflag)
      · cases h
    · next key value hcut =>
      have htoken : token = String.ofList key ++ "=" ++ String.ofList value := by
        rw [← String.ofList_toList (s := token), Text.eq_append_of_cutAt hcut]
        apply String.toList_injective
        simp
      split at h
      · cases h
      · next make hmake =>
        split at h
        · cases h
        · obtain ⟨hcheck, rfl⟩ := checked_eq_ok.mp (mapError_eq_ok.mp h)
          have hmem := Assoc.mem_of_get? hmake
          have hvalue := isBlank_of_mem_value (htoken ▸ hb)
          simp only [valueTokens, List.mem_cons, Prod.mk.injEq, List.not_mem_nil, or_false] at hmem
          rw [htoken]
          rcases hmem with ⟨hkey, rfl⟩ | ⟨hkey, rfl⟩ | ⟨hkey, rfl⟩ | ⟨hkey, rfl⟩ <;> rw [hkey]
          · exact .className ((isGivenName_iff hvalue).mp (check_className.mp hcheck))
          · exact .fieldName ((isGivenName_iff hvalue).mp (check_fieldName.mp hcheck))
          · exact .collection (check_collection.mp hcheck).choose_spec
          · exact .instantiate (check_instantiate.mp hcheck).choose_spec
  · intro h
    cases h with
    | flag hflag =>
      simp only [flagTokens, List.mem_cons, Prod.mk.injEq, List.not_mem_nil, or_false] at hflag
      rcases hflag with ⟨rfl, rfl⟩ | ⟨rfl, rfl⟩ | ⟨rfl, rfl⟩ | ⟨rfl, rfl⟩ | ⟨rfl, rfl⟩ |
        ⟨rfl, rfl⟩ | ⟨rfl, rfl⟩ | ⟨rfl, rfl⟩ | ⟨rfl, rfl⟩ <;> rfl
    | className hname =>
      refine (setting_of_value path "class" rfl (by decide) ?_).mpr
        ⟨check_className.mpr ((isGivenName_iff (isBlank_of_mem_value hb)).mpr hname), rfl⟩
      rintro rfl
      cases hname
    | fieldName hname =>
      refine (setting_of_value path "field" rfl (by decide) ?_).mpr
        ⟨check_fieldName.mpr ((isGivenName_iff (isBlank_of_mem_value hb)).mpr hname), rfl⟩
      rintro rfl
      cases hname
    | collection hc =>
      refine (setting_of_value path "collection" rfl (by decide) ?_).mpr
        ⟨check_collection.mpr ⟨_, hc⟩, rfl⟩
      rintro rfl
      cases hc
    | instantiate hi =>
      refine (setting_of_value path "instantiate" rfl (by decide) ?_).mpr
        ⟨check_instantiate.mpr ⟨_, hi⟩, rfl⟩
      rintro rfl
      cases hi

/-! ### Lines -/

def Reads (compile : Compiler ε) (l : Nat × List Char) (e : ControlEntry) : Prop :=
  e.line = l.1 ∧ ∃ rest tokens settings, Parts l.2 e.path.toList rest ∧
    NamesPath compile e.path.toList e.pattern ∧ Spaced tokens rest ∧ tokens ≠ [] ∧
      List.Forall₂ (fun t x => Gives (String.ofList t) x) tokens settings ∧
        e.settings = Settings.ofList settings

def FailsOn (compile : Compiler ε) (l : Nat × List Char) (x : ε) : Prop :=
  ∃ body rest, Parts l.2 ('/' :: body) rest ∧
    compile (String.ofList body.dropLast) = .error (.foreign x)

/-- The numbered lines that have to be entries. -/
def entryLines (lines : List (Nat × List Char)) : List (Nat × List Char) :=
  (lines.map fun l => (l.1, stripComment l.2)).filter fun l => !l.2.isEmpty

def numbered (text : String) : List (Nat × List Char) :=
  (Text.splitLines text.toList).zipIdx.map fun p => (p.2 + 1, p.1)

theorem parseLine_eq_ok {l : Nat × List Char} :
    parseLine compile l.1 l.2 = .ok e ↔ Reads compile l e := by
  -- The words of the rest are its tokens, and none of them is blank.
  have tokens {path : String} {rest : List Char} {xs : List Setting} :
      ((Text.words (String.ofList rest)).mapM (setting path)).mapError Sum.inl =
          (.ok xs : Except (EntryError ⊕ ε) _) ↔
        List.Forall₂ (fun t x => Gives (String.ofList t) x) (Text.splitBlanks rest) xs := by
    have hword := (Text.splitBlanks_eq_iff.mp (rfl : Text.splitBlanks rest = _)).isWord
    have hiff {t x} (ht : IsWord t) : setting path (String.ofList t) = .ok x ↔
        Gives (String.ofList t) x := setting_eq_ok (by simpa using ht.2)
    rw [mapError_eq_ok, mapM_eq_ok, Text.words, String.toList_ofList, List.forall₂_map_left_iff]
    constructor <;> intro h
    · exact ((List.forall₂_and_left _ _).mpr ⟨hword, h⟩).imp fun t x ht => (hiff ht.1).mp ht.2
    · exact ((List.forall₂_and_left _ _).mpr ⟨hword, h⟩).imp fun t x ht => (hiff ht.1).mpr ht.2
  constructor
  · intro h
    unfold parseLine at h
    split at h
    · cases h
    · next path rest hparts =>
      obtain ⟨pattern, hpattern, h⟩ := exceptBind_eq_ok.mp h
      dsimp only at h
      split at h
      · cases h
      · next hne =>
        obtain ⟨xs, hxs, h⟩ := exceptBind_eq_ok.mp h
        cases h
        refine ⟨rfl, rest, Text.splitBlanks rest, xs, ?_, ?_, Text.splitBlanks_eq_iff.mp rfl, ?_,
          tokens.mp hxs, rfl⟩
        · rw [String.toList_ofList]
          exact splitEntry?_eq_some.mp hparts
        · rw [String.toList_ofList]
          exact patternOf_eq_ok.mp hpattern
        · simpa [Text.words] using hne
  · rintro ⟨hline, rest, ts, xs, hparts, hpath, hspaced, hne, hxs, hsettings⟩
    obtain rfl := Text.splitBlanks_eq_iff.mpr hspaced
    have hwords : (Text.words (String.ofList rest)).isEmpty = false := by
      simpa [Text.words] using hne
    simp only [parseLine, splitEntry?_eq_some.mpr hparts, patternOf_eq_ok.mpr hpath]
    refine exceptBind_eq_ok.mpr ⟨_, rfl, ?_⟩
    rw [if_neg (by simp [hwords])]
    refine exceptBind_eq_ok.mpr ⟨xs, tokens.mpr hxs, ?_⟩
    rw [String.ofList_toList, ← hsettings, ← hline]
    rfl

theorem parseLine_eq_inr {l : Nat × List Char} {x : ε} :
    parseLine compile l.1 l.2 = .error (.inr x) ↔ FailsOn compile l x := by
  unfold parseLine FailsOn
  constructor
  · intro h
    split at h
    · cases h
    · next path rest hparts =>
      cases hp : patternOf compile path with
      | error y =>
        rw [hp] at h
        cases h
        obtain ⟨body, rfl, hbody⟩ := patternOf_eq_inr.mp hp
        exact ⟨body, rest, splitEntry?_eq_some.mp hparts, hbody⟩
      | ok pattern =>
        rw [hp] at h
        change ite _ _ _ = _ at h
        split at h
        · cases h
        · cases hs : (Text.words (String.ofList rest)).mapM (setting (String.ofList path)) <;>
            rw [hs] at h <;> cases h
  · rintro ⟨body, rest, hparts, hbody⟩
    simp only [splitEntry?_eq_some.mpr hparts, patternOf_eq_inr.mpr ⟨body, rfl, hbody⟩]
    rfl

theorem parseLines_eq_ok {source : String} {lines : List (Nat × List Char)}
    {es : List ControlEntry} :
    parseLines compile source lines = .ok es ↔
      List.Forall₂ (Reads compile) (entryLines lines) es := by
  induction lines generalizing es with
  | nil =>
    rw [entryLines, List.map_nil, List.filter_nil, List.forall₂_nil_left_iff, parseLines]
    exact ⟨fun h => (Except.ok.inj h).symm, fun h => h ▸ rfl⟩
  | cons l lines ih =>
    obtain ⟨number, raw⟩ := l
    unfold entryLines at ih ⊢
    rw [List.map_cons, List.filter_cons, parseLines]
    dsimp only
    cases hempty : (stripComment raw).isEmpty with
    | true => exact ih
    | false =>
      simp only [Bool.false_eq_true, if_false, Bool.not_false, if_true]
      rw [List.forall₂_cons_left_iff]
      constructor
      · intro h
        obtain ⟨entry, hentry, h⟩ := exceptBind_eq_ok.mp h
        obtain ⟨rest, hrest, h⟩ := exceptBind_eq_ok.mp h
        exact ⟨entry, rest, parseLine_eq_ok.mp (mapError_eq_ok.mp hentry), ih.mp hrest,
          exceptPure_eq_ok.mp h⟩
      · rintro ⟨entry, rest, hentry, hrest, rfl⟩
        exact exceptBind_eq_ok.mpr ⟨entry, mapError_eq_ok.mpr (parseLine_eq_ok.mpr hentry),
          exceptBind_eq_ok.mpr ⟨rest, ih.mpr hrest, rfl⟩⟩

/-- The first line that cannot be read stops the others. -/
theorem parseLines_eq_error {source : String} {lines : List (Nat × List Char)}
    {x : ConfigError ⊕ ε} (h : parseLines compile source lines = .error x) :
    ∃ before l after y, entryLines lines = before ++ l :: after ∧
      (∀ b ∈ before, ∃ e, Reads compile b e) ∧ parseLine compile l.1 l.2 = .error y ∧
        x = y.map (.entry source l.1) id := by
  induction lines with
  | nil => cases h
  | cons l lines ih =>
    obtain ⟨number, raw⟩ := l
    unfold entryLines at ih ⊢
    rw [List.map_cons, List.filter_cons]
    rw [parseLines] at h
    dsimp only at h ⊢
    cases hempty : (stripComment raw).isEmpty with
    | true =>
      rw [hempty] at h
      exact ih h
    | false =>
      rw [hempty] at h
      simp only [Bool.false_eq_true, if_false, Bool.not_false, if_true] at h ⊢
      cases hentry : parseLine compile number (stripComment raw) with
      | error y =>
        rw [hentry] at h
        cases h
        exact ⟨[], (number, stripComment raw), _, y, rfl, by simp, hentry, rfl⟩
      | ok entry =>
        rw [hentry] at h
        cases hrest : parseLines compile source lines with
        | ok es =>
          rw [hrest] at h
          cases h
        | error z =>
          rw [hrest] at h
          cases h
          obtain ⟨before, l, after, y, heq, hbefore, hl⟩ := ih hrest
          refine ⟨(number, stripComment raw) :: before, l, after, y, by rw [heq]; rfl, ?_, hl⟩
          exact List.forall_mem_cons.mpr ⟨⟨entry, parseLine_eq_ok.mp hentry⟩, hbefore⟩

/-! ### What is given, and what a path is -/

theorem given?_ofList (xs : List Setting) (part : Directive.Part) :
    (Settings.ofList xs).given? part =
      (xs.reverse.find? fun x => x.gives.1 = part).map fun x => x.gives.2 := by
  induction xs using List.reverseRecOn with
  | nil => simp [Settings.ofList]
  | append_singleton xs x ih =>
    rw [Settings.ofList, List.foldl_append, ← Settings.ofList, List.foldl_cons, List.foldl_nil,
      Settings.given?_set, ih, List.reverse_append, List.reverse_singleton, List.singleton_append,
      List.find?_cons]
    by_cases hx : x.gives.1 = part <;> simp [hx]

theorem exists_of_given? {xs : List Setting} {part : Directive.Part} {v : Value}
    (h : (Settings.ofList xs).given? part = some v) : ∃ x ∈ xs, x.gives = (part, v) := by
  rw [given?_ofList] at h
  obtain ⟨x, hx, rfl⟩ := Option.map_eq_some_iff.mp h
  refine ⟨x, List.mem_reverse.mp (List.mem_of_find?_eq_some hx), Prod.ext ?_ rfl⟩
  simpa using List.find?_some hx

/-- A path that names a property, or a pattern between two slashes. -/
def Documented (compile : Compiler ε) (e : ControlEntry) : Prop :=
  e.pattern = none ∧ isPropertyPath e.path.toList = true ∨
    ∃ body accepts, e.path = "/" ++ body ++ "/" ∧ compile body = .ok accepts ∧
      e.pattern = some ⟨body, accepts⟩

/-- A word that starts with a slash and does not end with another one. -/
def IsUnclosed (path : String) : Prop :=
  ∃ body, path.toList = '/' :: body ∧ body.getLast? ≠ some '/'

theorem Reads.documented_iff {l : Nat × List Char} (h : Reads compile l e) :
    Documented compile e ↔ ¬ IsUnclosed e.path := by
  obtain ⟨-, rest, -, -, -, hpath, -⟩ := h
  constructor
  · rintro (⟨-, hproperty⟩ | ⟨body, p, hclosed, -, -⟩) ⟨open_, hopen, hlast⟩
    · exact head?_of_isPropertyPath hproperty (by rw [hopen]; rfl)
    · have hlist : e.path.toList = '/' :: (body.toList ++ ['/']) := by simp [hclosed]
      rw [hlist] at hopen
      rw [← (List.cons.inj hopen).2, List.getLast?_concat] at hlast
      exact hlast rfl
  · intro hclosed
    generalize hs : e.path.toList = path at hpath
    generalize hp : e.pattern = pattern at hpath
    cases hpath with
    | property hproperty => exact Or.inl ⟨hp, hs ▸ hproperty⟩
    | @pattern body p hparse =>
      obtain ⟨accepts, hcompile, rfl⟩ := matcher_eq_ok.mp hparse
      refine Or.inr ⟨String.ofList body, accepts, ?_, hcompile, hp⟩
      apply String.toList_injective
      simp [hs]
    | unclosed hlast => exact absurd ⟨_, hs, hlast⟩ hclosed

/-- Names are identifiers, and there are the collections and the modes. -/
structure Supported (s : Settings) : Prop where
  className : ∀ name, s.className = some name → Text.isIdentifier name.toList = true
  fieldName : ∀ name, s.fieldName = some name → Text.isIdentifier name.toList = true
  collection : ∀ name, s.collection = some name → ∃ c, Collection.resolve name = .ok c
  instantiate : ∀ mode, s.instantiate = some mode → ∃ i, Instantiation.resolve mode = .ok i

theorem Gives.of_text {x : Setting} {v : String} (h : Gives token x) (hv : x.gives.2 = .text v) :
    (x.gives.1 = .className ∨ x.gives.1 = .fieldName) ∧ Text.isIdentifier v.toList = true ∨
      x.gives.1 = .collection ∧ (∃ c, Collection.resolve v = .ok c) ∨
      x.gives.1 = .instantiate ∧ ∃ i, Instantiation.resolve v = .ok i := by
  cases h with
  | flag hflag =>
    simp only [flagTokens, List.mem_cons, Prod.mk.injEq, List.not_mem_nil, or_false] at hflag
    rcases hflag with ⟨-, rfl⟩ | ⟨-, rfl⟩ | ⟨-, rfl⟩ | ⟨-, rfl⟩ | ⟨-, rfl⟩ | ⟨-, rfl⟩ |
      ⟨-, rfl⟩ | ⟨-, rfl⟩ | ⟨-, rfl⟩ <;> cases hv
  | className hname =>
    cases hv
    exact Or.inl ⟨Or.inl rfl, hname⟩
  | fieldName hname =>
    cases hv
    exact Or.inl ⟨Or.inr rfl, hname⟩
  | collection hc =>
    cases hv
    exact Or.inr (Or.inl ⟨rfl, _, hc⟩)
  | instantiate hi =>
    cases hv
    exact Or.inr (Or.inr ⟨rfl, _, hi⟩)

theorem supported_ofList {xs : List Setting} (h : ∀ x ∈ xs, ∃ token, Gives token x) :
    Supported (Settings.ofList xs) := by
  have given (part : Directive.Part) {v : String}
      (hv : (Settings.ofList xs).given? part = some (.text v)) :
      (part = .className ∨ part = .fieldName) ∧ Text.isIdentifier v.toList = true ∨
        part = .collection ∧ (∃ c, Collection.resolve v = .ok c) ∨
        part = .instantiate ∧ ∃ i, Instantiation.resolve v = .ok i := by
    obtain ⟨x, hx, hgives⟩ := exists_of_given? hv
    obtain ⟨token, ht⟩ := h x hx
    have := ht.of_text (by rw [hgives])
    rwa [hgives] at this
  refine ⟨fun v hv => ?_, fun v hv => ?_, fun v hv => ?_, fun v hv => ?_⟩
  · simpa using given .className (by simp [Settings.given?, hv])
  · simpa using given .fieldName (by simp [Settings.given?, hv])
  · simpa using given .collection (by simp [Settings.given?, hv])
  · simpa using given .instantiate (by simp [Settings.given?, hv])

theorem ofList_ne_empty {xs : List Setting} (h : xs ≠ []) : Settings.ofList xs ≠ {} := by
  induction xs using List.reverseRecOn with
  | nil => exact absurd rfl h
  | append_singleton xs x _ =>
    intro hempty
    have := given?_ofList (xs ++ [x]) x.gives.1
    simp [hempty] at this

theorem parseWith_eq_ok {text source : String} {f : ControlFile} :
    parseWith compile text source = .ok f ↔
      f.source = source ∧ List.Forall₂ (Reads compile) (entryLines (numbered text)) f.entries := by
  constructor
  · intro h
    obtain ⟨es, hes, h⟩ := exceptBind_eq_ok.mp h
    cases h
    exact ⟨rfl, parseLines_eq_ok.mp hes⟩
  · rintro ⟨rfl, hreads⟩
    exact exceptBind_eq_ok.mpr ⟨f.entries, parseLines_eq_ok.mpr hreads, rfl⟩

theorem parseWith_eq_error {text source : String} {x : ConfigError ⊕ ε} :
    parseWith compile text source = .error x ↔
      parseLines compile source (numbered text) = .error x := by
  have hparse : parseWith compile text source =
      (parseLines compile source (numbered text)).map fun es => ⟨es, source⟩ := by
    change (parseLines compile source (numbered text)).bind _ = _
    cases parseLines compile source (numbered text) <;> rfl
  rw [hparse]
  cases parseLines compile source (numbered text) <;> simp [Except.map]

/-- A text is read exactly if its lines are those of the grammar, or unclosed words. The first other
line is reported, unless the compiler fails on it. -/
theorem parseWith_iff_reads (compile : Compiler ε) (text source : String) :
    (∀ f, parseWith compile text source = .ok f ↔
      f.source = source ∧ List.Forall₂ (Reads compile) (entryLines (numbered text)) f.entries) ∧
    (∀ x, parseWith compile text source = .error x → ∃ before l after,
      entryLines (numbered text) = before ++ l :: after ∧
        (∀ b ∈ before, ∃ e, Reads compile b e) ∧ (∀ e, ¬ Reads compile l e) ∧
        ((∃ cause, x = .inl (.entry source l.1 cause) ∧ ∀ y, ¬ FailsOn compile l y) ∨
          ∃ y, x = .inr y ∧ FailsOn compile l y)) ∧
    ∀ f, parseWith compile text source = .ok f → ∀ e ∈ f.entries,
      e.settings ≠ {} ∧ Supported e.settings ∧ (Documented compile e ↔ ¬ IsUnclosed e.path) := by
  constructor
  · intro f
    exact parseWith_eq_ok
  constructor
  · intro x h
    obtain ⟨before, l, after, y, heq, hbefore, hl, rfl⟩ :=
      parseLines_eq_error (parseWith_eq_error.mp h)
    refine ⟨before, l, after, heq, hbefore, fun e he => ?_, ?_⟩
    · rw [parseLine_eq_ok.mpr he] at hl
      cases hl
    · cases y with
      | inl cause =>
        refine Or.inl ⟨cause, rfl, fun y hy => ?_⟩
        rw [parseLine_eq_inr.mpr hy] at hl
        cases hl
      | inr y => exact Or.inr ⟨y, rfl, parseLine_eq_inr.mp hl⟩
  · intro f h e he
    obtain ⟨l, -, hreads⟩ := exists_left_of_forall₂ (parseWith_eq_ok.mp h).2 he
    have hdocumented := hreads.documented_iff
    obtain ⟨-, -, tokens, xs, -, -, -, hne, hgives, hsettings⟩ := hreads
    rw [hsettings]
    refine ⟨ofList_ne_empty ?_, supported_ofList fun x hx => ?_, hdocumented⟩
    · rintro rfl
      exact hne (List.forall₂_nil_right_iff.mp hgives)
    · obtain ⟨t, -, ht⟩ := exists_left_of_forall₂ hgives hx
      exact ⟨_, ht⟩

/-- The second slash may be missing. -/
theorem unclosed_path_read : ¬ ∀ (text source : String) (f : ControlFile),
    parse text source = .ok f → ∀ e ∈ f.entries, Documented Pattern.compile e := by
  intro claim
  have hread : (parse "/foo = skip" "<control>").toOption.map (fun f => f.entries.map (·.path)) =
      some ["/foo"] := by decide +kernel
  obtain ⟨f, hf, hpaths⟩ := Option.map_eq_some_iff.mp hread
  have hf := toOption_eq_some.mp hf
  obtain ⟨e, he, hpath⟩ := List.mem_map.mp (hpaths ▸ List.mem_singleton_self "/foo")
  obtain ⟨l, -, hreads⟩ :=
    exists_left_of_forall₂ (parseWith_eq_ok.mp (mapError_eq_ok.mp hf)).2 he
  exact hreads.documented_iff.mp (claim _ _ f hf e he)
    ⟨"foo".toList, by rw [hpath]; decide, by decide⟩

end Enfold.ControlFile
