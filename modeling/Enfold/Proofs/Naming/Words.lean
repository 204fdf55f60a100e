import Mathlib.Data.List.SplitBy
import Enfold.Proofs.Naming.Identifier
import Enfold.Proofs.Text.Parts

/-! # Words of a name

The small-letter form of a name is its words in small letters, joined by single underscores. No word
holds an underscore, so the form gives back the words, and two names come to one form exactly if
they have the same words but for their case.
-/

namespace Enfold.Naming

open Text

variable {a b c : Char} {r s t : List Char}

/-- A capital behind a small letter or a digit starts a word. -/
def continuesWord (a b : Char) : Bool :=
  isAlphanumeric a && isAlphanumeric b && !((isAsciiLower a || isAsciiDigit a) && isAsciiUpper b)

/-- The runs of letters and digits of a name, which capitals part as well. -/
def words (s : List Char) : List (List Char) :=
  (s.splitBy continuesWord).filter (·.all isAlphanumeric)

/-! ### One character after the other -/

@[simp] theorem words_nil : words [] = [] := rfl

theorem words_singleton (a : Char) : words [a] = if isAlphanumeric a then [[a]] else [] := by
  have hsplit : [a].splitBy continuesWord = [[a]] := rfl
  cases ha : isAlphanumeric a <;> simp [words, hsplit, ha]

theorem words_cons_of_parted (h : continuesWord a b = false) (r : List Char) :
    words (a :: b :: r) = words [a] ++ words (b :: r) := by
  have hsplit : ([a] ++ b :: r).splitBy continuesWord =
      [a].splitBy continuesWord ++ (b :: r).splitBy continuesWord :=
    List.splitBy_append_cons r (by simpa using h)
  rw [words, ← List.singleton_append, hsplit, List.filter_append]
  rfl

theorem underscore_not_alphanumeric : isAlphanumeric '_' = false := by
  decide

theorem words_cons_of_not (ha : isAlphanumeric a = false) (s : List Char) :
    words (a :: s) = words s := by
  have hnone : words [a] = [] := by simp [words_singleton, ha]
  cases s with
  | nil => rw [hnone, words_nil]
  | cons b r => rw [words_cons_of_parted (by simp [continuesWord, ha]), hnone, List.nil_append]

theorem all_isAlphanumeric_of_isChain (hb : isAlphanumeric b = true)
    (h : (b :: t).IsChain fun x y => continuesWord x y = true) :
    (b :: t).all isAlphanumeric = true := by
  induction t generalizing b with
  | nil => simpa using hb
  | cons c t ih =>
    obtain ⟨hbc, ht⟩ := List.isChain_cons_cons.mp h
    have hc : isAlphanumeric c = true := by
      simp only [continuesWord, Bool.and_eq_true] at hbc
      exact hbc.1.2
    rw [List.all_cons, hb, ih hc ht]
    rfl

theorem exists_splitBy_cons (b : Char) (r : List Char) : ∃ t gs,
    (b :: r).splitBy continuesWord = (b :: t) :: gs ∧
      (b :: t).IsChain fun x y => continuesWord x y = true := by
  have hne : (b :: r).splitBy continuesWord ≠ [] := by simp
  have hhead := List.head_head_splitBy continuesWord (List.cons_ne_nil b r)
  cases hsplit : (b :: r).splitBy continuesWord with
  | nil => exact absurd hsplit hne
  | cons g gs =>
    have hg : g ∈ (b :: r).splitBy continuesWord := hsplit ▸ List.mem_cons_self
    have hchain := List.isChain_of_mem_splitBy hg
    cases g with
    | nil => exact absurd hg (List.nil_notMem_splitBy _ _)
    | cons x t =>
      simp only [hsplit, List.head_cons] at hhead
      subst hhead
      exact ⟨t, gs, rfl, hchain⟩

theorem words_cons_of_continues (h : continuesWord a b = true) :
    words (a :: b :: r) = (words (b :: r)).modifyHead (a :: ·) := by
  obtain ⟨t, gs, hsplit, hchain⟩ := exists_splitBy_cons b r
  obtain ⟨hflat, hnil, hchains, hparted⟩ := List.splitBy_eq_iff.mp hsplit
  have hlong : (a :: b :: r).splitBy continuesWord = (a :: b :: t) :: gs := by
    apply List.splitBy_eq_iff.mpr
    refine ⟨by rw [hflat]; rfl, by simpa using hnil, ?_, ?_⟩
    · intro g hg
      rcases List.mem_cons.mp hg with rfl | hg
      · exact List.isChain_cons_cons.mpr ⟨h, hchain⟩
      · exact hchains g (List.mem_cons_of_mem _ hg)
    · cases gs with
      | nil => exact List.isChain_singleton _
      | cons g gs =>
        obtain ⟨⟨_, hb, hlast⟩, hrest⟩ := List.isChain_cons_cons.mp hparted
        refine List.isChain_cons_cons.mpr ⟨⟨List.cons_ne_nil _ _, hb, ?_⟩, hrest⟩
        rwa [List.getLast_cons (List.cons_ne_nil b t)]
  simp only [continuesWord, Bool.and_eq_true] at h
  have hall := all_isAlphanumeric_of_isChain h.1.2 hchain
  simp [words, hlong, hsplit, hall, h.1.1, List.modifyHead]

theorem words_ne_nil (hb : isAlphanumeric b = true) (r : List Char) : words (b :: r) ≠ [] := by
  obtain ⟨t, gs, hsplit, hchain⟩ := exists_splitBy_cons b r
  rw [words, hsplit]
  simp [all_isAlphanumeric_of_isChain hb hchain]

/-! ### Words beside what is no word -/

/-- Foreign characters make no difference, whichever they are. -/
theorem words_map {f : Char → Char} (hf : ∀ c, isAlphanumeric c = true → f c = c)
    (hf' : ∀ c, isAlphanumeric c = false → isAlphanumeric (f c) = false) (s : List Char) :
    words (s.map f) = words s := by
  induction s with
  | nil => rfl
  | cons a s ih =>
    cases ha : isAlphanumeric a with
    | false => rw [List.map_cons, words_cons_of_not (hf' a ha), words_cons_of_not ha, ih]
    | true =>
      cases s with
      | nil => rw [List.map_singleton, hf a ha]
      | cons b r =>
        rw [List.map_cons, List.map_cons] at *
        have hfb : continuesWord (f a) (f b) = continuesWord a b := by
          cases hb : isAlphanumeric b with
          | true => rw [hf a ha, hf b hb]
          | false => simp [continuesWord, hb, hf' b hb]
        cases hab : continuesWord a b with
        | true =>
          rw [words_cons_of_continues (hfb.trans hab), words_cons_of_continues hab, ih, hf a ha]
        | false =>
          rw [words_cons_of_parted (hfb.trans hab), words_cons_of_parted hab, ih, hf a ha]

theorem words_append_left (hs : ∀ c ∈ s, isAlphanumeric c = false) (t : List Char) :
    words (s ++ t) = words t := by
  induction s with
  | nil => rfl
  | cons a s ih =>
    obtain ⟨ha, hs⟩ := List.forall_mem_cons.mp hs
    rw [List.cons_append, words_cons_of_not ha, ih hs]

theorem words_append_right (ht : ∀ c ∈ t, isAlphanumeric c = false) (s : List Char) :
    words (s ++ t) = words s := by
  have hend : words t = [] := by simpa using words_append_left ht []
  have hsplit : (s ++ t).splitBy continuesWord =
      s.splitBy continuesWord ++ t.splitBy continuesWord := by
    apply List.splitBy_append
    intro x _ y hy
    simp [continuesWord, ht y (List.mem_of_mem_head? hy)]
  rw [words, hsplit, List.filter_append]
  change words s ++ words t = words s
  rw [hend, List.append_nil]

/-! ### The small-letter form -/

def joined (ws : List (List Char)) : List Char := ['_'].intercalate (ws.map (·.map Char.toLower))

theorem joined_cons {ws : List (List Char)} (h : ws ≠ []) (w : List Char) :
    joined (w :: ws) = w.map Char.toLower ++ '_' :: joined ws := by
  have hmap : ws.map (·.map Char.toLower) ≠ [] := by simpa using h
  rw [joined, List.map_cons, List.intercalate_cons_of_ne_nil hmap, List.append_assoc]
  rfl

theorem joined_modifyHead {ws : List (List Char)} (h : ws ≠ []) (a : Char) :
    joined (ws.modifyHead (a :: ·)) = a.toLower :: joined ws := by
  cases ws with
  | nil => exact absurd rfl h
  | cons w ws =>
    cases ws with
    | nil => rfl
    | cons w' ws => simp [joined, List.intercalate_cons_cons]

theorem ne_underscore (h : isAlphanumeric c = true) : c ≠ '_' := by
  rintro rfl
  exact absurd h (by decide)

theorem ne_hyphen (h : isAlphanumeric c = true) : c ≠ '-' := by
  rintro rfl
  exact absurd h (by decide)

theorem isNameChar_iff : isNameChar c = true ↔ isAlphanumeric c = true ∨ c = '_' ∨ c = '-' := by
  simp only [isNameChar, isIdentifierChar, isIdentifierStart, isAlphanumeric, Bool.or_eq_true,
    decide_eq_true_eq]
  tauto

/-- A text with its words parted, in small letters and with single underscores. -/
def spaced (s : List Char) : List Char := collapseUnderscores ((separateWords s).map Char.toLower)

theorem collapseUnderscores_cons (h : isAlphanumeric c = true) (l : List Char) :
    collapseUnderscores (c.toLower :: l) = c.toLower :: collapseUnderscores l := by
  have hc : c.toLower ≠ '_' := toLower_eq_underscore.not.mpr (ne_underscore h)
  cases l with
  | nil => rfl
  | cons b r => rw [collapseUnderscores, if_neg (by simp [hc])]

theorem collapseUnderscores_underscore_cons (h : isAlphanumeric c = true) (l : List Char) :
    collapseUnderscores ('_' :: c.toLower :: l) = '_' :: collapseUnderscores (c.toLower :: l) := by
  have hc : c.toLower ≠ '_' := toLower_eq_underscore.not.mpr (ne_underscore h)
  rw [collapseUnderscores, if_neg (by simp [hc])]

theorem exists_separateWords_cons (b : Char) (r : List Char) :
    ∃ l, separateWords (b :: r) = b :: l := by
  cases r with
  | nil => exact ⟨[], rfl⟩
  | cons c r =>
    rw [separateWords]
    split
    · exact ⟨_, rfl⟩
    · exact ⟨_, rfl⟩

theorem spaced_cons_of_continues (h : continuesWord a b = true) (r : List Char) :
    spaced (a :: b :: r) = a.toLower :: spaced (b :: r) := by
  simp only [continuesWord, Bool.and_eq_true, Bool.not_eq_true'] at h
  rw [spaced, separateWords, if_neg (by simp [h.2]), List.map_cons, collapseUnderscores_cons h.1.1]
  rfl

theorem spaced_cons_of_parted (ha : isAlphanumeric a = true) (hb : isAlphanumeric b = true)
    (h : continuesWord a b = false) (r : List Char) :
    spaced (a :: b :: r) = a.toLower :: '_' :: spaced (b :: r) := by
  obtain ⟨l, hl⟩ := exists_separateWords_cons b r
  simp only [continuesWord, ha, hb, Bool.true_and, Bool.not_eq_false'] at h
  rw [spaced, spaced, separateWords, if_pos h, hl, List.map_cons, collapseUnderscores_cons ha]
  simp only [List.map_cons]
  rw [← collapseUnderscores_underscore_cons hb]
  rfl

theorem spaced_cons_underscore (h : isAlphanumeric a = true) (r : List Char) :
    spaced (a :: '_' :: r) = a.toLower :: spaced ('_' :: r) := by
  have hcapital : isAsciiUpper '_' = false := rfl
  rw [spaced, separateWords, if_neg (by simp [hcapital]), List.map_cons,
    collapseUnderscores_cons h]
  rfl

theorem separateWords_underscore_cons (s : List Char) :
    separateWords ('_' :: s) = '_' :: separateWords s := by
  cases s with
  | nil => rfl
  | cons b r => rfl

theorem spaced_underscore_cons (h : isAlphanumeric b = true) (r : List Char) :
    spaced ('_' :: b :: r) = '_' :: spaced (b :: r) := by
  obtain ⟨l, hl⟩ := exists_separateWords_cons b r
  rw [spaced, spaced, separateWords_underscore_cons, hl, List.map_cons, List.map_cons]
  exact collapseUnderscores_underscore_cons h _

theorem spaced_underscores (r : List Char) : spaced ('_' :: '_' :: r) = spaced ('_' :: r) := by
  rw [spaced, spaced, separateWords_underscore_cons, separateWords_underscore_cons]
  rfl

/-- A text comes to its joined words, perhaps with an underscore on either side. -/
def ComesToWords (s : List Char) : Prop :=
  ∃ after, (∀ c ∈ after, c = '_') ∧
    spaced s = (if s.head? = some '_' then ['_'] else []) ++ (joined (words s) ++ after)

theorem ComesToWords.cons_letter (ha : isAlphanumeric a = true) (hb : isAlphanumeric b = true)
    (h : ComesToWords (b :: r)) : ComesToWords (a :: b :: r) := by
  obtain ⟨after, hafter, h⟩ := h
  have hwords := words_ne_nil hb r
  simp only [List.head?_cons, Option.some.injEq, ne_underscore hb, if_false, List.nil_append] at h
  refine ⟨after, hafter, ?_⟩
  simp only [List.head?_cons, Option.some.injEq, ne_underscore ha, if_false, List.nil_append]
  cases hab : continuesWord a b with
  | true =>
    rw [spaced_cons_of_continues hab, words_cons_of_continues hab, joined_modifyHead hwords, h,
      List.cons_append]
  | false =>
    rw [spaced_cons_of_parted ha hb hab, words_cons_of_parted hab, words_singleton, if_pos ha,
      List.singleton_append, joined_cons hwords, h]
    simp

theorem ComesToWords.cons_before_underscore (ha : isAlphanumeric a = true)
    (h : ComesToWords ('_' :: r)) : ComesToWords (a :: '_' :: r) := by
  obtain ⟨after, hafter, h⟩ := h
  have hparted : continuesWord a '_' = false := by
    simp [continuesWord, underscore_not_alphanumeric]
  simp only [List.head?_cons, if_true, List.singleton_append] at h
  unfold ComesToWords
  simp only [List.head?_cons, Option.some.injEq, ne_underscore ha, if_false, List.nil_append]
  rw [spaced_cons_underscore ha, h, words_cons_of_parted hparted, words_singleton, if_pos ha,
    List.singleton_append]
  cases hws : words ('_' :: r) with
  | nil => exact ⟨'_' :: after, by simpa using hafter, by simp [joined]⟩
  | cons w ws =>
    refine ⟨after, hafter, ?_⟩
    rw [joined_cons (List.cons_ne_nil w ws)]
    simp

theorem ComesToWords.cons_underscore (hb : isAlphanumeric b = true ∨ b = '_')
    (h : ComesToWords (b :: r)) : ComesToWords ('_' :: b :: r) := by
  obtain ⟨after, hafter, h⟩ := h
  refine ⟨after, hafter, ?_⟩
  rw [words_cons_of_not underscore_not_alphanumeric]
  rcases hb with hb | rfl
  · simp only [List.head?_cons, Option.some.injEq, ne_underscore hb, if_false] at h
    rw [spaced_underscore_cons hb, h]
    rfl
  · rw [spaced_underscores, h]
    rfl

theorem comesToWords (h : ∀ c ∈ s, isAlphanumeric c = true ∨ c = '_') : ComesToWords s := by
  induction s with
  | nil => exact ⟨[], by simp, rfl⟩
  | cons a s ih =>
    obtain ⟨ha, hs⟩ := List.forall_mem_cons.mp h
    cases s with
    | nil =>
      refine ⟨[], by simp, ?_⟩
      rcases ha with ha | rfl
      · simp [words_singleton, ha, ne_underscore ha, joined, spaced, separateWords,
          collapseUnderscores]
      · rfl
    | cons b r =>
      have hb := hs b List.mem_cons_self
      rcases ha with ha | rfl
      · rcases hb with hb | rfl
        · exact (ih hs).cons_letter ha hb
        · exact (ih hs).cons_before_underscore ha
      · exact (ih hs).cons_underscore hb

theorem of_mem_words {w : List Char} (hw : w ∈ words s) :
    w ≠ [] ∧ ∀ c ∈ w, isAlphanumeric c = true := by
  obtain ⟨hmem, hall⟩ := List.mem_filter.mp hw
  exact ⟨List.ne_nil_of_mem_splitBy hmem, List.all_eq_true.mp hall⟩

theorem underscore_notMem_map_toLower {w : List Char} (hw : w ∈ words s) :
    '_' ∉ w.map Char.toLower := by
  intro h
  obtain ⟨c, hc, he⟩ := List.mem_map.mp h
  exact ne_underscore ((of_mem_words hw).2 c hc) (toLower_eq_underscore.mp he)

theorem joined_singleton (w : List Char) : joined [w] = w.map Char.toLower := by
  simp [joined]

theorem joined_ne_nil {w : List Char} (hw : w ≠ []) (ws : List (List Char)) :
    joined (w :: ws) ≠ [] := by
  cases ws with
  | nil => simpa [joined_singleton] using hw
  | cons w' ws => simp [joined_cons (List.cons_ne_nil w' ws), hw]

theorem joined_ends {ws : List (List Char)} (h : ∀ w ∈ ws, w ≠ [] ∧ '_' ∉ w.map Char.toLower) :
    (∀ c ∈ (joined ws).head?, c ≠ '_') ∧ ∀ c ∈ (joined ws).getLast?, c ≠ '_' := by
  induction ws with
  | nil => simp [joined]
  | cons w ws ih =>
    obtain ⟨⟨hw, hunderscore⟩, hws⟩ := List.forall_mem_cons.mp h
    have hne : w.map Char.toLower ≠ [] := by simpa using hw
    cases ws with
    | nil =>
      rw [joined_singleton]
      constructor
      · rintro c hc rfl
        exact hunderscore (List.mem_of_mem_head? hc)
      · rintro c hc rfl
        exact hunderscore (List.mem_of_mem_getLast? hc)
    | cons w' ws =>
      have hjoined := joined_ne_nil (hws w' List.mem_cons_self).1 ws
      rw [joined_cons (List.cons_ne_nil w' ws)]
      constructor
      · rintro c hc rfl
        rw [List.head?_append_of_ne_nil _ hne] at hc
        exact hunderscore (List.mem_of_mem_head? hc)
      · intro c hc
        rw [List.getLast?_append_of_ne_nil _ (List.cons_ne_nil _ _),
          List.getLast?_cons_of_ne_nil hjoined] at hc
        exact (ih hws).2 c hc

theorem toSnake_eq_joined (hs : ∀ c ∈ s, isNameChar c = true) : toSnake s = joined (words s) := by
  have hwords : words (s.map fun c => if c = '-' then '_' else c) = words s := by
    apply words_map
    · intro c hc
      exact if_neg (ne_hyphen hc)
    · intro c hc
      split
      · decide
      · exact hc
  have hchars : ∀ c ∈ s.map fun c => if c = '-' then '_' else c,
      isAlphanumeric c = true ∨ c = '_' := by
    intro c hc
    obtain ⟨a, ha, rfl⟩ := List.mem_map.mp hc
    rcases isNameChar_iff.mp (hs a ha) with h | rfl | rfl
    · left
      rwa [if_neg (ne_hyphen h)]
    · exact Or.inr rfl
    · exact Or.inr rfl
  obtain ⟨after, hafter, h⟩ := comesToWords hchars
  have hpure : ∀ w ∈ words s, w ≠ [] ∧ '_' ∉ w.map Char.toLower := by
    intro w hw
    exact ⟨(of_mem_words hw).1, underscore_notMem_map_toLower hw⟩
  obtain ⟨hhead, hlast⟩ := joined_ends hpure
  rw [hwords] at h
  change trimWhere _ (spaced _) = _
  rw [h]
  apply trimWhere_append
  · split <;> simp
  · simpa using hafter
  · simpa using hhead
  · simpa using hlast

def kept (s : List Char) : List Char :=
  trimWhere (fun c => c = '_' || c = '-') (s.map fun c => if isNameChar c then c else '_')

theorem words_kept (s : List Char) : words (kept s) = words s := by
  have hforeign {c : Char} (h : (decide (c = '_') || decide (c = '-')) = true) :
      isAlphanumeric c = false := by
    rcases (by simpa using h) with rfl | rfl <;> decide
  have hmap : words (s.map fun c => if isNameChar c then c else '_') = words s := by
    apply words_map
    · intro c hc
      exact if_pos (isNameChar_iff.mpr (Or.inl hc))
    · intro c hc
      split
      · exact hc
      · decide
  obtain ⟨before, after, hbefore, hafter, hs⟩ := exists_eq_append_trimWhere
    (fun c => decide (c = '_') || decide (c = '-')) (s.map fun c => if isNameChar c then c else '_')
  rwa [hs, words_append_left fun c hc => hforeign (hbefore c hc),
    words_append_right fun c hc => hforeign (hafter c hc)] at hmap

theorem isAlphanumeric_of_kept (h : kept s = c :: r) : isAlphanumeric c = true := by
  have hhead := head?_trimWhere (fun c => decide (c = '_') || decide (c = '-'))
    (s.map fun c => if isNameChar c then c else '_')
  change (kept s).head? = _ at hhead
  rw [h, List.head?_cons] at hhead
  have hsolid := List.find?_some hhead.symm
  obtain ⟨a, -, rfl⟩ := List.mem_map.mp (List.mem_of_find?_eq_some hhead.symm)
  split at hsolid
  · next ha =>
    rw [if_pos ha]
    rcases isNameChar_iff.mp ha with h | rfl | rfl
    · exact h
    · exact absurd hsolid (by decide)
    · exact absurd hsolid (by decide)
  · exact absurd hsolid (by decide)

theorem clean_of_kept_nil (h : kept s = []) : clean s = "field".toList := by
  rw [kept] at h
  simp only [clean, h]

theorem clean_of_kept_cons (h : kept s = c :: r) :
    clean s = if isAsciiDigit c then '_' :: kept s else kept s := by
  rw [h]
  rw [kept] at h
  simp only [clean, h]

/-- Cleaning a name keeps its words, and gives it one if it has none. -/
theorem words_clean (s : List Char) :
    words (clean s) = if words s = [] then ["field".toList] else words s := by
  cases hkept : kept s with
  | nil =>
    have hnone : words s = [] := by rw [← words_kept, hkept, words_nil]
    rw [clean_of_kept_nil hkept, if_pos hnone]
    decide
  | cons c r =>
    have hsome : words s ≠ [] := by
      rw [← words_kept, hkept]
      exact words_ne_nil (isAlphanumeric_of_kept hkept) r
    rw [clean_of_kept_cons hkept, if_neg hsome]
    split
    · rw [words_cons_of_not underscore_not_alphanumeric, words_kept]
    · exact words_kept s

/-- The words of a name in small letters, or the one that stands in. -/
def smallWords (s : List Char) : List (List Char) :=
  (if words s = [] then ["field".toList] else words s).map (·.map Char.toLower)

/-- The small-letter form of a name is its words with single underscores between them. -/
theorem toSnake_clean (s : List Char) : toSnake (clean s) = ['_'].intercalate (smallWords s) := by
  rw [toSnake_eq_joined fun c hc => isNameChar_of_mem_clean hc, words_clean, joined, smallWords]

example : smallWords "_anyHTMLText-2b".toList =
    ["any".toList, "htmltext".toList, "2b".toList] := by decide

theorem toSnake_clean_eq_iff {ws : List (List Char)} (hne : ws ≠ []) (hws : ∀ w ∈ ws, '_' ∉ w) :
    toSnake (clean s) = ['_'].intercalate ws ↔ smallWords s = ws := by
  rw [toSnake_clean]
  constructor
  · intro h
    have hsmall : ∀ w ∈ smallWords s, '_' ∉ w := by
      rw [smallWords, ← words_clean]
      intro w hw
      obtain ⟨v, hv, rfl⟩ := List.mem_map.mp hw
      exact underscore_notMem_map_toLower hv
    have hsome : smallWords s ≠ [] := by
      unfold smallWords
      split <;> simp_all
    rw [← List.splitOn_intercalate '_' hsmall hsome, h, List.splitOn_intercalate '_' hws hne]
  · rintro rfl
    rfl

theorem apply_defaultEscapes_eq_iff {name x : String} (hx : x ∉ reserved)
    (hlast : x.toList.getLast? ≠ some '_') : defaultEscapes.apply name = x ↔ name = x := by
  constructor
  · intro h
    rcases apply_defaultEscapes name with e | e
    · exact e.symm.trans h
    · rw [← h, e] at hlast
      simp at hlast
  · rintro rfl
    have hkeys : Assoc.keys defaultEscapes = reserved := by
      simp [Assoc.keys, defaultEscapes, reserved, Function.comp_def]
    rw [Escapes.apply, Assoc.get?_eq_none (hkeys ▸ hx)]
    rfl

/-- The names that come to one small-letter form are those of its words. -/
theorem sanitize_snake_eq_iff {name x : String} {ws : List (List Char)} (hx : x ∉ reserved)
    (hlast : x.toList.getLast? ≠ some '_') (hjoin : x.toList = ['_'].intercalate ws)
    (hne : ws ≠ []) (hws : ∀ w ∈ ws, '_' ∉ w) :
    sanitize defaultEscapes .snake name = x ↔ smallWords name.toList = ws := by
  rw [sanitize, apply_defaultEscapes_eq_iff hx hlast, ← toSnake_clean_eq_iff hne hws, ← hjoin,
    ← String.toList_inj, String.toList_ofList]
  rfl

end Enfold.Naming
