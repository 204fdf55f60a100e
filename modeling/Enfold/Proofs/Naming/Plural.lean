import Enfold.Proofs.Naming.Derive
import Enfold.Proofs.Naming.Sanitize

/-! # Plurals of plurals

The last word of a name is found again in its plural. Almost every plural is its own plural: it
stands in a table, or it ends in an s after a letter that lets it be. Words that end in an i or a
u are the exception. Their plurals end in `is` or `us` and take a plural like any such word; the
second plural is its own plural again.
-/

namespace Enfold.Naming

open Text

variable {c : Char} {s head word r : List Char}

/-! ### Last words -/

def isInner (c : Char) : Bool := isAsciiLower c || isAsciiDigit c

theorem cases_of_isInner (h : isInner c = true) :
    isAsciiUpper c = false ∧ c ≠ '\n' ∧ isIdentifierChar c = true := by
  have hchar : isIdentifierChar c = true := by
    rcases Bool.or_eq_true_iff.mp h with h | h <;>
      simp [isIdentifierChar, isIdentifierStart, isAsciiLetter, h]
  exact of_ascii (P := fun c => isInner c = true →
    isAsciiUpper c = false ∧ c ≠ '\n' ∧ isIdentifierChar c = true) (by decide)
    (toNat_lt_of_isIdentifierChar hchar) h

theorem cases_of_isAsciiLower (h : isAsciiLower c = true) :
    isInner c = true ∧ isAsciiDigit c = false ∧ isAsciiUpper (upperChar c) = true ∧
      lowerChars (upperChar c) = [c] := by
  have hinner : isInner c = true := by rw [isInner, h, Bool.true_or]
  refine ⟨hinner, ?_⟩
  exact of_ascii (P := fun c => isAsciiLower c = true → isAsciiDigit c = false ∧
    isAsciiUpper (upperChar c) = true ∧ lowerChars (upperChar c) = [c]) (by decide)
    (toNat_lt_of_isIdentifierChar (cases_of_isInner hinner).2.2) h

theorem cases_of_isAsciiUpper (h : isAsciiUpper c = true) :
    isInner c = false ∧ c ≠ '\n' ∧
      ∃ a, lowerChars c = [a] ∧ isAsciiLower a = true ∧ upperChar a = c := by
  have hchar : isIdentifierChar c = true := by
    simp [isIdentifierChar, isIdentifierStart, isAsciiLetter, h]
  have := of_ascii (P := fun c => isAsciiUpper c = true → isInner c = false ∧ c ≠ '\n' ∧
    lowerChars c = [c.toLower] ∧ isAsciiLower c.toLower = true ∧ upperChar c.toLower = c)
    (by decide) (toNat_lt_of_isIdentifierChar hchar) h
  exact ⟨this.1, this.2.1, c.toLower, this.2.2⟩

theorem lowerChars_of_isInner (h : isInner c = true) : lowerChars c = [c] :=
  of_ascii (P := fun c => isInner c = true → lowerChars c = [c]) (by decide)
    (toNat_lt_of_isIdentifierChar (cases_of_isInner h).2.2) h

/-- A word and what stands before it, with the word as long as it can be. -/
inductive LastWord : List Char → List Char → Prop
  | capital {head r : List Char} {c : Char} : isAsciiUpper c = true → (∀ a ∈ r, isInner a = true) →
      LastWord head (c :: r)
  | small {before digits r : List Char} {c : Char} :
      (∀ a ∈ before.getLast?, isInner a = false ∧ isAsciiUpper a = false) →
      (∀ a ∈ digits, isAsciiDigit a = true) → isAsciiLower c = true →
      (∀ a ∈ r, isInner a = true) → LastWord (before ++ digits) (c :: r)

theorem takeWhile_reverse_append {p : Char → Bool} {a b : List Char}
    (ha : ∀ c ∈ a.getLast?, p c = false) (hb : ∀ c ∈ b, p c = true) :
    ((a ++ b).reverse.takeWhile p).reverse = b ∧ ((a ++ b).reverse.dropWhile p).reverse = a := by
  have hb' : ∀ c ∈ b.reverse, p c = true := fun c hc => hb c (List.mem_reverse.mp hc)
  have hstop : a.reverse.takeWhile p = [] ∧ a.reverse.dropWhile p = a.reverse := by
    rw [← List.head?_reverse] at ha
    cases h : a.reverse with
    | nil => simp
    | cons c s => simp [ha c (by simp [h])]
  rw [List.reverse_append, List.takeWhile_append_of_pos hb', List.dropWhile_append_of_pos hb',
    hstop.1, hstop.2]
  simp

theorem getLast?_ne_newline (hc : c ≠ '\n') (hr : ∀ a ∈ r, isInner a = true) :
    (head ++ c :: r).getLast? ≠ some '\n' := by
  intro h
  have hmem : '\n' ∈ c :: r := by
    rw [List.getLast?_append_of_ne_nil _ (List.cons_ne_nil c r)] at h
    exact List.mem_of_getLast? h
  rcases List.mem_cons.mp hmem with h | h
  · exact hc h.symm
  · exact (cases_of_isInner (hr _ h)).2.1 rfl

namespace Pluralizer

/-- A capital before inner characters starts the last word, else a letter of them. -/
theorem splitLastWord_append {before run : List Char}
    (hbefore : ∀ a ∈ before.getLast?, isInner a = false) (hrun : ∀ a ∈ run, isInner a = true)
    (hend : (before ++ run).getLast? ≠ some '\n') :
    (∀ a, before.getLast? = some a → isAsciiUpper a = true →
      splitLastWord (before ++ run) = some (before.dropLast, a :: run)) ∧
    ((∀ a ∈ before.getLast?, isAsciiUpper a = false) →
      splitLastWord (before ++ run) = splitLastWord.fromLetter before run) := by
  obtain ⟨htake, hdrop⟩ := takeWhile_reverse_append (p := isInner) hbefore hrun
  have hinner : (fun c => isAsciiLower c || isAsciiDigit c) = isInner := rfl
  simp only [splitLastWord, if_neg hend, hinner, htake, hdrop]
  constructor
  · intro a ha hcapital
    simp only [ha, hcapital, if_true]
  · intro hsmall
    cases hlast : before.getLast? with
    | none => rfl
    | some a => simp only [hsmall a hlast, Bool.false_eq_true, if_false]

theorem splitLastWord_of_lastWord (h : LastWord head word) :
    splitLastWord (head ++ word) = some (head, word) := by
  cases h with
  | @capital _ r c hc hr =>
    obtain ⟨hinner, hne, -⟩ := cases_of_isAsciiUpper hc
    have hend : (head ++ c :: r).getLast? ≠ some '\n' := getLast?_ne_newline hne hr
    rw [List.append_cons] at hend ⊢
    simpa using (splitLastWord_append (by simpa using hinner) hr hend).1 c (by simp) hc
  | @small before digits r c hbefore hdigits hc hr =>
    obtain ⟨hinner, hdigit, -, -⟩ := cases_of_isAsciiLower hc
    have hrun : ∀ a ∈ digits ++ c :: r, isInner a = true := by
      intro a ha
      rcases List.mem_append.mp ha with ha | ha
      · rw [isInner, hdigits a ha, Bool.or_true]
      · rcases List.mem_cons.mp ha with rfl | ha
        · exact hinner
        · exact hr a ha
    have hend : (before ++ digits ++ c :: r).getLast? ≠ some '\n' :=
      getLast?_ne_newline (cases_of_isInner hinner).2.1 hr
    rw [List.append_assoc] at hend ⊢
    rw [(splitLastWord_append (fun a ha => (hbefore a ha).1) hrun hend).2 fun a ha =>
      (hbefore a ha).2]
    unfold splitLastWord.fromLetter
    rw [List.dropWhile_append_of_pos hdigits, List.takeWhile_append_of_pos hdigits]
    simp [hdigit]

theorem lastWord_of_fromLetter {before run : List Char}
    (hbefore : ∀ a ∈ before.getLast?, isInner a = false ∧ isAsciiUpper a = false)
    (hrun : ∀ a ∈ run, isInner a = true)
    (h : splitLastWord.fromLetter before run = some (head, word)) :
    LastWord head word ∧ head ++ word = before ++ run := by
  have hstart := List.head?_dropWhile_not isAsciiDigit run
  unfold splitLastWord.fromLetter at h
  split at h
  · cases h
  · cases h
    refine ⟨?_, by rw [List.append_assoc, List.takeWhile_append_dropWhile]⟩
    cases hword : run.dropWhile isAsciiDigit with
    | nil => contradiction
    | cons c r =>
      have hinner : ∀ a ∈ c :: r, isInner a = true := fun a ha =>
        hrun a ((List.dropWhile_sublist _).subset (hword ▸ ha))
      have hdigit : isAsciiDigit c = false := by simpa [hword] using hstart
      refine .small hbefore (fun a ha => List.all_eq_true.mp List.all_takeWhile a ha) ?_
        fun a ha => hinner a (List.mem_cons_of_mem c ha)
      simpa [isInner, hdigit] using hinner c List.mem_cons_self

theorem lastWord_of_splitLastWord (h : splitLastWord s = some (head, word)) :
    LastWord head word ∧ head ++ word <+: s := by
  have hinner : (fun c => isAsciiLower c || isAsciiDigit c) = isInner := rfl
  simp only [splitLastWord, hinner] at h
  have hbody : (if s.getLast? = some '\n' then s.dropLast else s) <+: s := by
    split
    · exact List.dropLast_prefix s
    · exact List.prefix_rfl
  generalize (if s.getLast? = some '\n' then s.dropLast else s) = body at h hbody
  have hstop : ∀ a ∈ (body.reverse.dropWhile isInner).reverse.getLast?, isInner a = false := by
    intro a ha
    rw [List.getLast?_reverse] at ha
    have := List.head?_dropWhile_not isInner body.reverse
    rw [ha] at this
    exact this
  have hrun : ∀ a ∈ (body.reverse.takeWhile isInner).reverse, isInner a = true := fun a ha =>
    List.all_eq_true.mp List.all_takeWhile a (List.mem_reverse.mp ha)
  have hwhole : (body.reverse.dropWhile isInner).reverse ++
      (body.reverse.takeWhile isInner).reverse = body := by
    rw [← List.reverse_append, List.takeWhile_append_dropWhile, List.reverse_reverse]
  rw [← hwhole] at hbody
  generalize (body.reverse.dropWhile isInner).reverse = before at h hstop hbody
  generalize (body.reverse.takeWhile isInner).reverse = run at h hrun hbody
  have hletter (hsmall : ∀ a ∈ before.getLast?, isAsciiUpper a = false)
      (h : splitLastWord.fromLetter before run = some (head, word)) :
      LastWord head word ∧ head ++ word <+: s := by
    obtain ⟨hlast, heq⟩ :=
      lastWord_of_fromLetter (fun a ha => ⟨hstop a ha, hsmall a ha⟩) hrun h
    exact ⟨hlast, heq ▸ hbody⟩
  split at h
  · next c hlast =>
    split at h
    · next hc =>
      cases h
      refine ⟨.capital hc hrun, ?_⟩
      rwa [List.append_cons, List.dropLast_append_getLast? c hlast]
    · next hc =>
      refine hletter (fun a ha => ?_) h
      obtain rfl : c = a := Option.some.inj (hlast.symm.trans ha)
      exact Bool.eq_false_iff.mpr hc
  · next hnone => exact hletter (fun a ha => by rw [hnone] at ha; cases ha) h

/-! ### Words in small letters -/

def isSmallWord (s : List Char) : Bool := s.head?.any isAsciiLower && s.all isInner

theorem isSmallWord_byEnding (h : isSmallWord r.reverse = true) :
    isSmallWord (byEnding r).reverse = true := by
  have hadded : isInner 's' = true ∧ isInner 'e' = true ∧ isInner 'i' = true ∧
    isAsciiLower 'e' = true := by decide
  simp only [isSmallWord, List.head?_reverse, List.all_reverse, Bool.and_eq_true] at h ⊢
  -- The first letter of the word is the last one here, and it is only ever replaced by another.
  have hlast : ∃ a, r.getLast? = some a ∧ isAsciiLower a = true := by
    simpa [Option.any_eq_true] using h.1
  obtain ⟨a, ha, hsmall⟩ := hlast
  unfold byEnding
  split
  case h_1 r =>
    cases hr : r.getLast? with
    | none => simp_all [List.getLast?_cons]
    | some b => simp_all [List.getLast?_cons]
  case h_5 => split <;> simp_all [List.getLast?_cons]
  all_goals simp_all [List.getLast?_cons]

theorem isSmallWord_ofWord {word : String} (h : isSmallWord word.toList = true) :
    isSmallWord (default.ofWord word).toList = true := by
  have table : ∀ e ∈ irregularNouns, isSmallWord e.2.toList = true := by decide
  unfold ofWord
  split
  · exact h
  · split
    · next plural hp => exact table _ (Assoc.mem_of_get? hp)
    · rw [String.toList_ofList]
      exact isSmallWord_byEnding (by rwa [List.reverse_reverse])

def endsInIOrU (s : List Char) : Bool := s.getLast?.any fun c => c = 'i' || c = 'u'

theorem byEnding_byEnding_iff :
    byEnding (byEnding r) = byEnding r ↔ endsInIOrU r.reverse = false := by
  rw [endsInIOrU, List.getLast?_reverse]
  fun_cases byEnding r
  case case11 =>
    -- The letter before the new s decides what a second plural does.
    cases r with
    | nil => decide
    | cons c r =>
      by_cases hi : c = 'i'
      · subst hi
        simp [byEnding]
      by_cases hu : c = 'u'
      · subst hu
        simp [byEnding]
      · simp [byEnding, hi, hu]
  all_goals simp_all [byEnding]

theorem exists_byEnding (r : List Char) : ∃ t, byEnding r = 's' :: t := by
  unfold byEnding
  split <;> try split
  all_goals exact ⟨_, rfl⟩

/-- The words that are their own plurals by a table. -/
def settledWords : List String := uncountableNouns ++ irregularNouns.map Prod.snd

theorem ofWord_of_mem {word : String} (h : word ∈ settledWords) : default.ofWord word = word := by
  unfold ofWord
  rw [if_pos]
  rcases List.mem_append.mp h with h | h
  · simp [default, h]
  · obtain ⟨e, he, rfl⟩ := List.mem_map.mp h
    simp only [isPluralForm, Bool.or_eq_true, List.any_eq_true]
    exact Or.inr ⟨e, he, by simp⟩

theorem ofWord_of_notMem {word : String} (h : word ∉ settledWords) :
    default.ofWord word = (Assoc.get? word irregularNouns).getD
      (String.ofList (byEnding word.toList.reverse).reverse) := by
  unfold ofWord
  rw [if_neg]
  · cases hp : Assoc.get? word irregularNouns <;> simp [default, hp]
  · simp only [settledWords, List.mem_append, not_or] at h
    simp only [default, isPluralForm, Bool.or_eq_true, List.contains_iff_mem, not_or]
    refine ⟨h.1, fun hany => h.2 ?_⟩
    obtain ⟨e, he, hword⟩ := List.any_eq_true.mp hany
    exact List.mem_map.mpr ⟨e, he, by simpa using hword⟩

/-- No table of plurals lists a word in `is` or `us`. -/
theorem ofWord_byEnding_iff : default.ofWord (String.ofList (byEnding r).reverse) =
    String.ofList (byEnding r).reverse ↔ endsInIOrU r.reverse = false := by
  have singulars : ∀ e ∈ irregularNouns, e.1.toList.reverse.head? ≠ some 's' := by decide
  have settled : ∀ w ∈ settledWords, w.toList.reverse.take 2 ≠ ['s', 'i'] ∧
      w.toList.reverse.take 2 ≠ ['s', 'u'] := by decide
  have hreverse : (String.ofList (byEnding r).reverse).toList.reverse = byEnding r := by simp
  by_cases hmem : String.ofList (byEnding r).reverse ∈ settledWords
  · refine ⟨fun _ => ?_, fun _ => ofWord_of_mem hmem⟩
    have hends := settled _ hmem
    rw [hreverse] at hends
    rw [endsInIOrU, List.getLast?_reverse]
    cases r with
    | nil => rfl
    | cons c r =>
      refine Bool.eq_false_iff.mpr fun h => ?_
      rcases (by simpa using h : c = 'i' ∨ c = 'u') with rfl | rfl
      · exact hends.1 (by simp [byEnding])
      · exact hends.2 (by simp [byEnding])
  · have hget : Assoc.get? (String.ofList (byEnding r).reverse) irregularNouns = none := by
      refine Option.eq_none_iff_forall_ne_some.mpr fun plural hp => ?_
      obtain ⟨t, ht⟩ := exists_byEnding r
      have := singulars _ (Assoc.mem_of_get? hp)
      rw [hreverse, ht] at this
      exact this rfl
    rw [ofWord_of_notMem hmem, hget, Option.getD_none, hreverse, String.ofList_inj,
      List.reverse_inj, byEnding_byEnding_iff]

theorem ofWord_ofWord_iff (word : String) :
    default.ofWord (default.ofWord word) = default.ofWord word ↔
      endsInIOrU word.toList = false := by
  have tables : ∀ w ∈ settledWords ++ irregularNouns.map Prod.fst,
      endsInIOrU w.toList = false := by decide
  by_cases hmem : word ∈ settledWords
  · rw [ofWord_of_mem hmem, ofWord_of_mem hmem]
    simp [tables word (List.mem_append_left _ hmem)]
  · rw [ofWord_of_notMem hmem]
    cases hp : Assoc.get? word irregularNouns with
    | none =>
      rw [Option.getD_none, ofWord_byEnding_iff, List.reverse_reverse]
    | some plural =>
      have he := Assoc.mem_of_get? hp
      have hplural : plural ∈ settledWords :=
        List.mem_append_right _ (List.mem_map.mpr ⟨_, he, rfl⟩)
      have hword := tables word (List.mem_append_right _ (List.mem_map.mpr ⟨_, he, rfl⟩))
      simp [ofWord_of_mem hplural, hword]

/-! ### Names -/

/-- A word in small letters with a capital in front if `c` is one. -/
def capitalizedAs (c : Char) (s : List Char) : List Char :=
  if isAsciiUpper c then s.modifyHead upperChar else s

theorem lower_ofList (s : List Char) :
    lower (String.ofList s) = String.ofList (s.flatMap lowerChars) := by
  rw [lower, String.toList_ofList]

theorem flatMap_lowerChars (hr : ∀ a ∈ r, isInner a = true) : r.flatMap lowerChars = r := by
  induction r with
  | nil => rfl
  | cons a r ih =>
    rw [List.flatMap_cons, lowerChars_of_isInner (hr a List.mem_cons_self),
      ih fun b hb => hr b (List.mem_cons_of_mem a hb), List.singleton_append]

theorem exists_lower_of_lastWord (h : LastWord head (c :: r)) : ∃ s, isSmallWord s = true ∧
    lower (String.ofList (c :: r)) = String.ofList s ∧ capitalizedAs c s = c :: r := by
  cases h with
  | capital hc hr =>
    obtain ⟨-, -, a, hlower, ha, hupper⟩ := cases_of_isAsciiUpper hc
    refine ⟨a :: r, ?_, ?_, ?_⟩
    · simpa [isSmallWord, ha, (cases_of_isAsciiLower ha).1] using hr
    · rw [lower_ofList, List.flatMap_cons, hlower, flatMap_lowerChars hr, List.singleton_append]
    · simp [capitalizedAs, hc, hupper]
  | small _ _ hc hr =>
    have hinner : isInner c = true := (cases_of_isAsciiLower hc).1
    refine ⟨c :: r, ?_, ?_, ?_⟩
    · simpa [isSmallWord, hc, hinner] using hr
    · rw [lower_ofList, flatMap_lowerChars (List.forall_mem_cons.mpr ⟨hinner, hr⟩)]
    · simp [capitalizedAs, (cases_of_isInner hinner).1]

theorem lastWord_capitalizedAs (h : LastWord head (c :: r)) (hs : isSmallWord s = true) :
    ∃ d t, capitalizedAs c s = d :: t ∧ LastWord head (d :: t) ∧
      isAsciiUpper d = isAsciiUpper c ∧ lower (String.ofList (d :: t)) = String.ofList s := by
  obtain ⟨a, t, rfl⟩ : ∃ a t, s = a :: t := by
    cases s with
    | nil => cases hs
    | cons a t => exact ⟨a, t, rfl⟩
  obtain ⟨ha, hall⟩ : isAsciiLower a = true ∧ ∀ b ∈ a :: t, isInner b = true := by
    simpa [isSmallWord] using hs
  have ht : ∀ b ∈ t, isInner b = true := fun b hb => hall b (List.mem_cons_of_mem a hb)
  obtain ⟨hinner, -, hupper, hlower⟩ := cases_of_isAsciiLower ha
  cases h with
  | capital hc hr =>
    refine ⟨upperChar a, t, ?_, .capital hupper ht, by rw [hupper, hc], ?_⟩
    · simp [capitalizedAs, hc]
    · rw [lower_ofList, List.flatMap_cons, hlower, flatMap_lowerChars ht, List.singleton_append]
  | small hbefore hdigits hc hr =>
    have hcapital : isAsciiUpper c = false := (cases_of_isInner (cases_of_isAsciiLower hc).1).1
    refine ⟨a, t, ?_, .small hbefore hdigits ha ht, ?_, ?_⟩
    · simp [capitalizedAs, hcapital]
    · rw [hcapital, (cases_of_isInner hinner).1]
    · rw [lower_ofList, flatMap_lowerChars hall]

theorem capitalizedAs_inj {t : List Char} (h : LastWord head (c :: r))
    (hs : isSmallWord s = true) (ht : isSmallWord t = true)
    (he : capitalizedAs c s = capitalizedAs c t) : s = t := by
  obtain ⟨a, u, hau, -, -, hlower⟩ := lastWord_capitalizedAs h hs
  obtain ⟨b, v, hbv, -, -, hlower'⟩ := lastWord_capitalizedAs h ht
  obtain ⟨rfl, rfl⟩ : a = b ∧ u = v := by simpa [hau, hbv] using he
  exact String.ofList_inj.mp (hlower.symm.trans hlower')

def lastWord? (name : String) : Option String :=
  (splitLastWord name.toList).map fun parts => lower (String.ofList parts.2)

/-- Only the last word changes, and the case of its first letter stays. -/
theorem pluralize_eq {name : String} (h : splitLastWord name.toList = some (head, c :: r))
    (hs : lower (String.ofList (c :: r)) = String.ofList s) (hword : isSmallWord s = true) :
    default.pluralize name =
      .ok (String.ofList (head ++ capitalizedAs c (default.ofWord (String.ofList s)).toList)) := by
  have hplural : isSmallWord (default.ofWord (String.ofList s)).toList = true :=
    isSmallWord_ofWord (by rwa [String.toList_ofList])
  unfold pluralize
  rw [h]
  dsimp only
  rw [hs, capitalizedAs, List.head?_cons, Option.map_some, Option.getD_some]
  split
  · split
    · next hnil =>
      rw [hnil] at hplural
      cases hplural
    · next d t hcons => rw [hcons, List.modifyHead_cons]
  · rfl

theorem pluralize_of_lastWord? {name word : String} (h : lastWord? name = some word) :
    ∃ plural, default.pluralize name = .ok plural ∧
      lastWord? plural = some (default.ofWord word) ∧
      (default.pluralize plural = .ok plural ↔
        default.ofWord (default.ofWord word) = default.ofWord word) := by
  obtain ⟨⟨head, last⟩, hsplit, rfl⟩ := Option.map_eq_some_iff.mp h
  have hlast := (lastWord_of_splitLastWord hsplit).1
  obtain ⟨c, r, rfl⟩ : ∃ c r, last = c :: r := by cases hlast <;> exact ⟨_, _, rfl⟩
  obtain ⟨s, hs, hlower, -⟩ := exists_lower_of_lastWord hlast
  have hp : isSmallWord (default.ofWord (String.ofList s)).toList = true :=
    isSmallWord_ofWord (by rwa [String.toList_ofList])
  obtain ⟨d, t, hdt, hplural, hcase, hlowered⟩ := lastWord_capitalizedAs hlast hp
  have hsplit' : splitLastWord (String.ofList (head ++ d :: t)).toList = some (head, d :: t) := by
    rw [String.toList_ofList, splitLastWord_of_lastWord hplural]
  refine ⟨String.ofList (head ++ d :: t), ?_, ?_, ?_⟩
  · rw [pluralize_eq hsplit hlower hs, hdt]
  · rw [lastWord?, hsplit', Option.map_some, hlowered, String.ofList_toList, hlower]
  · have hdt' : capitalizedAs d (default.ofWord (String.ofList s)).toList = d :: t := by
      rw [← hdt, capitalizedAs, capitalizedAs, hcase]
    rw [hlower, pluralize_eq hsplit' hlowered hp, String.ofList_toList]
    refine ⟨fun h => ?_, fun h => by rw [h, hdt']⟩
    have hlist := List.append_cancel_left (String.ofList_inj.mp (Except.ok.inj h))
    have hp' := isSmallWord_ofWord hp
    exact String.toList_inj.mp (capitalizedAs_inj hplural hp' hp (hlist.trans hdt'.symm))

/-- Whether the last word ends in i or u, so that its plural passes for a singular. -/
def takesPluralAgain (name : String) : Bool :=
  (lastWord? name).any fun word => endsInIOrU word.toList

theorem isPlural_iff {p : Pluralizer} {name word : String} (h : lastWord? name = some word) :
    p.isPlural name = true ↔ p.ofWord word = word := by
  obtain ⟨⟨head, last⟩, hsplit, rfl⟩ := Option.map_eq_some_iff.mp h
  simp [isPlural, hsplit]

theorem endsInIOrU_ofWord (word : String) :
    endsInIOrU (default.ofWord word).toList = false := by
  have settled : ∀ w ∈ settledWords, endsInIOrU w.toList = false := by decide
  by_cases hmem : word ∈ settledWords
  · rw [ofWord_of_mem hmem]
    exact settled word hmem
  · rw [ofWord_of_notMem hmem]
    cases hp : Assoc.get? word irregularNouns with
    | none =>
      obtain ⟨t, ht⟩ := exists_byEnding word.toList.reverse
      simp [ht, endsInIOrU]
    | some plural =>
      exact settled plural
        (List.mem_append_right _ (List.mem_map.mpr ⟨_, Assoc.mem_of_get? hp, rfl⟩))

/-- The plural of a name is its own plural, unless its last word ends in i or u. -/
theorem pluralize_settles (name : String) : ∃ plural, default.pluralize name = .ok plural ∧
    (default.pluralize plural = .ok plural ↔ takesPluralAgain name = false) ∧
    ((lastWord? name).isSome = true →
      (default.isPlural plural = true ↔ takesPluralAgain name = false)) ∧
    ∀ again, default.pluralize plural = .ok again → default.pluralize again = .ok again := by
  cases h : lastWord? name with
  | none =>
    have hsplit : splitLastWord name.toList = none := Option.map_eq_none_iff.mp h
    have hsame : default.pluralize name = .ok name := by rw [pluralize, hsplit]
    refine ⟨name, hsame, by simp [takesPluralAgain, h, hsame], nofun, fun again hagain => ?_⟩
    cases hsame.symm.trans hagain
    exact hsame
  | some word =>
    obtain ⟨plural, hp, hlast, hagain⟩ := pluralize_of_lastWord? h
    have htakes : takesPluralAgain name = endsInIOrU word.toList := by simp [takesPluralAgain, h]
    rw [ofWord_ofWord_iff, ← htakes] at hagain
    refine ⟨plural, hp, hagain, fun _ => ?_, fun again hq => ?_⟩
    · rw [isPlural_iff hlast, htakes, ofWord_ofWord_iff]
    · obtain ⟨q, hq', -, hthird⟩ := pluralize_of_lastWord? hlast
      cases hq'.symm.trans hq
      exact hthird.mpr ((ofWord_ofWord_iff _).mpr (endsInIOrU_ofWord word))

theorem orderItem_settles : ∃ plural, default.pluralize "orderItem" = .ok plural ∧
    default.pluralize plural = .ok plural ∧ default.isPlural plural = true := by
  obtain ⟨plural, hp, hagain, hplural, -⟩ := pluralize_settles "orderItem"
  exact ⟨plural, hp, hagain.mpr (by decide), (hplural (by decide)).mpr (by decide)⟩

/-- The plural of a word in u takes a plural of its own. -/
theorem menus_not_settled : default.pluralize "menu" = .ok "menus" ∧
    default.pluralize "menus" ≠ .ok "menus" ∧ default.isPlural "menus" = false := by decide +kernel

end Pluralizer
end Enfold.Naming
