import Mathlib.Data.List.Chain
import Enfold.Proofs.Customization.Grammar

/-! # Control files as they are written

Entries may be written in many ways: with blanks around their parts, with either sign, and with
comments after and between them. All of these are read as the same entries. A slash in a pattern must
not look as if it closed the pattern; anything else may stand there, also what would start a comment
or end a path elsewhere.
-/

namespace Enfold.ControlFile

open Text (IsGap IsWord EndsWord Spaced InLine IsLineBreak)

variable {ε : Type} {compile : Compiler ε}

/-! ### Lines -/

structure Blanks where
  chars : List Char
  isGap : IsGap chars
  inLine : InLine chars

/-- One blank or more. -/
structure Gap extends Blanks where
  ne_nil : chars ≠ []

/-- The path of a property, or a pattern that compiles, written between slashes. -/
inductive WrittenPath (compile : Compiler ε) where
  | property (path : List Char) (isPath : isPropertyPath path = true)
  | pattern (body : List Char) (accepts : String → Bool) (ne_nil : body ≠ []) (inLine : InLine body)
      (compiles : compile (String.ofList body) = .ok accepts) (noneCloses : NoneCloses body)

namespace WrittenPath

def chars : WrittenPath compile → List Char
  | property path _ => path
  | pattern body .. => '/' :: (body ++ ['/'])

def pattern? : WrittenPath compile → Option Matcher
  | property .. => none
  | pattern body accepts .. => some ⟨String.ofList body, accepts⟩

end WrittenPath

structure WrittenToken where
  chars : List Char
  setting : Setting
  isWord : IsWord chars
  gives : Gives (String.ofList chars) setting

inductive WrittenTokens where
  | one (token : WrittenToken)
  | cons (token : WrittenToken) (gap : Gap) (others : WrittenTokens)

namespace WrittenTokens

def chars : WrittenTokens → List Char
  | one t => t.chars
  | cons t gap others => t.chars ++ (gap.chars ++ others.chars)

def toList : WrittenTokens → List WrittenToken
  | one t => [t]
  | cons t _ others => t :: others.toList

end WrittenTokens

/-- After an entry nothing but blanks, or a comment behind a blank. -/
inductive WrittenTail where
  | blanks (b : Blanks)
  | comment (gap : Gap) (text : List Char) (inLine : InLine text)

def WrittenTail.chars : WrittenTail → List Char
  | blanks b => b.chars
  | comment gap text _ => gap.chars ++ '#' :: text

structure WrittenEntry (compile : Compiler ε) where
  lead : Blanks
  path : WrittenPath compile
  before : Blanks
  sign : Char
  isSign : sign = '=' ∨ sign = ':'
  after : Blanks
  tokens : WrittenTokens
  tail : WrittenTail

namespace WrittenEntry

variable (w : WrittenEntry compile)

/-- What comes behind the path, up to the last token. -/
def behind : List Char := w.before.chars ++ w.sign :: (w.after.chars ++ w.tokens.chars)

def chars : List Char := w.lead.chars ++ (w.path.chars ++ w.behind ++ w.tail.chars)

def entry (number : Nat) : ControlEntry where
  line := number
  path := String.ofList w.path.chars
  settings := Settings.ofList (w.tokens.toList.map (·.setting))
  pattern := w.path.pattern?

end WrittenEntry

inductive WrittenLine (compile : Compiler ε) where
  | blank (b : Blanks)
  | comment (lead : Blanks) (text : List Char) (inLine : InLine text)
  | entry (w : WrittenEntry compile)

namespace WrittenLine

def chars : WrittenLine compile → List Char
  | blank b => b.chars
  | comment lead text _ => lead.chars ++ '#' :: text
  | entry w => w.chars

def entryAt (number : Nat) : WrittenLine compile → Option ControlEntry
  | blank _ | comment .. => none
  | entry w => some (w.entry number)

end WrittenLine

structure LineBreak where
  chars : List Char
  isLineBreak : IsLineBreak chars

/-- Some lines with their ends, and a last one without. -/
def written (lines : List (WrittenLine compile × LineBreak)) (last : WrittenLine compile) : String :=
  String.ofList ((lines.flatMap fun l => l.1.chars ++ l.2.chars) ++ last.chars)

def entriesOf (lines : List (WrittenLine compile)) : List ControlEntry :=
  lines.zipIdx.filterMap fun l => l.1.entryAt (l.2 + 1)

/-! ### What tokens are made of -/

variable {token : String} {x : Setting} {s t body after : List Char}

theorem slash_mem_lower {v : String} (h : '/' ∈ v.toList) : '/' ∈ (Text.lower v).toList := by
  rw [Text.lower, String.toList_ofList, List.mem_flatMap]
  exact ⟨'/', h, by decide⟩

theorem slash_mem_trim {v : String} (h : '/' ∈ v.toList) : '/' ∈ (Text.trim v).toList := by
  rw [Text.trim, String.toList_ofList]
  exact Text.mem_trimWhere h (by decide)

theorem slash_mem_dropStart {start v : String} (hstart : '/' ∉ start.toList) (h : '/' ∈ v.toList) :
    '/' ∈ (Text.dropStart start v).toList := by
  unfold Text.dropStart
  split
  · next hprefix =>
    obtain ⟨r, hr⟩ := List.isPrefixOf_iff_prefix.mp hprefix
    rw [← hr, List.mem_append] at h
    rw [String.toList_ofList, ← hr, ← String.length_toList, List.drop_left]
    exact h.resolve_left hstart
  · exact h

theorem slash_notMem_of_resolve {name : String} {c : Collection}
    (h : Collection.resolve (.text name) = .ok c) : '/' ∉ name.toList := by
  intro hslash
  unfold Collection.resolve at h
  dsimp only at h
  split at h
  · cases h
  · split at h
    · next hget =>
      have hkeys : ∀ k ∈ Assoc.keys supportedCollections, '/' ∉ k.toList := by decide
      refine hkeys _ (Assoc.isSome_get?.mp (by rw [hget]; rfl)) (slash_mem_lower ?_)
      exact slash_mem_dropStart (by decide) (slash_mem_trim hslash)
    · cases h

theorem slash_notMem_of_resolve_mode {mode : String} {i : Instantiation}
    (h : Instantiation.resolve (.text mode) = .ok i) : '/' ∉ mode.toList := by
  intro hslash
  have hplain : (Value.text mode).plain = mode := rfl
  rw [Instantiation.resolve, hplain] at h
  split at h
  · next j hfind =>
    have hname : j.name = Text.lower (Text.trim mode) := by simpa using List.find?_some hfind
    have hlower := slash_mem_lower (slash_mem_trim hslash)
    rw [← hname] at hlower
    revert hlower
    cases j <;> decide
  · cases h

theorem slash_notMem_of_isIdentifier (h : Text.isIdentifier s = true) : '/' ∉ s := by
  intro hslash
  have hall : ∀ c ∈ s, Text.isIdentifierChar c = true := by
    cases s with
    | nil => cases h
    | cons c r =>
      rw [Text.isIdentifier, Bool.and_eq_true] at h
      refine List.forall_mem_cons.mpr ⟨?_, List.all_eq_true.mp h.2⟩
      rw [Text.isIdentifierChar, h.1, Bool.true_or]
  exact absurd (hall '/' hslash) (by decide)

/-- A token starts no comment and closes no pattern. -/
theorem Gives.plain (h : Gives token x) : token.toList.head? ≠ some '#' ∧ '/' ∉ token.toList := by
  have value {start v : String} (hhead : start.toList ≠ []) (hstart : start.toList.head? ≠ some '#' ∧
      '/' ∉ start.toList) (hv : '/' ∉ v.toList) :
      (start ++ v).toList.head? ≠ some '#' ∧ '/' ∉ (start ++ v).toList := by
    rw [String.toList_append, List.head?_append_of_ne_nil _ hhead, List.mem_append]
    exact ⟨hstart.1, fun h => h.elim hstart.2 hv⟩
  cases h with
  | flag hflag =>
    have hall : ∀ f ∈ flagTokens, f.1.toList.head? ≠ some '#' ∧ '/' ∉ f.1.toList := by decide
    exact hall _ hflag
  | className h => exact value (by decide) (by decide) (slash_notMem_of_isIdentifier h)
  | fieldName h => exact value (by decide) (by decide) (slash_notMem_of_isIdentifier h)
  | collection h => exact value (by decide) (by decide) (slash_notMem_of_resolve h)
  | instantiate h => exact value (by decide) (by decide) (slash_notMem_of_resolve_mode h)

/-! ### Patterns and comments -/

theorem closes_cons {c : Char} :
    Closes (c :: s) ↔ (c = '=' ∨ c = ':') ∨ Text.isBlank c = true ∧ Closes s := by
  constructor
  · rintro ⟨rest, gap, sign, hg, hsign, heq⟩
    cases gap with
    | nil =>
      obtain ⟨rfl, -⟩ := List.cons.inj heq
      exact Or.inl hsign
    | cons b gap =>
      obtain ⟨rfl, rfl⟩ := List.cons.inj heq
      obtain ⟨hb, hgap⟩ := List.forall_mem_cons.mp hg
      exact Or.inr ⟨hb, rest, gap, sign, hgap, hsign, rfl⟩
  · rintro (hc | ⟨hc, rest, gap, sign, hg, hsign, rfl⟩)
    · exact ⟨s, [], c, fun _ h => absurd h List.not_mem_nil, hc, rfl⟩
    · exact ⟨rest, c :: gap, sign, hg.cons hc, hsign, rfl⟩

theorem Closes.of_append_slash (h : Closes (s ++ '/' :: after)) : Closes s := by
  induction s with
  | nil =>
    rcases closes_cons.mp h with h | ⟨h, -⟩
    · exact absurd h (by decide)
    · cases h
  | cons c s ih =>
    rw [List.cons_append, closes_cons] at h
    exact closes_cons.mpr (h.imp_right fun ⟨hc, h⟩ => ⟨hc, ih h⟩)

/-- The end of a pattern is found from the front as well. -/
theorem cutAtFirstSlash?_append (hbody : NoneCloses body) (hafter : Closes after) :
    cutAtFirstSlash? (body ++ '/' :: after) = some (body, after) := by
  induction body with
  | nil =>
    rw [List.nil_append, cutAtFirstSlash?]
    exact if_pos (by simpa using isSome_afterSign?.mpr hafter)
  | cons c body ih =>
    obtain ⟨hc, hbody⟩ := noneCloses_cons.mp hbody
    have hopen : ¬ (c = '/' && (afterSign? (body ++ '/' :: after)).isSome) = true := by
      rw [Bool.and_eq_true, decide_eq_true_eq, isSome_afterSign?]
      exact fun ⟨hslash, hcloses⟩ => hc hslash hcloses.of_append_slash
    rw [List.cons_append, cutAtFirstSlash?, if_neg hopen, ih hbody]
    rfl

theorem noneCloses_of_notMem (h : '/' ∉ s) : NoneCloses s := by
  rintro a b rfl
  exact absurd (List.mem_append_right a List.mem_cons_self) h

/-- No number sign comes after a blank. -/
def Uncommented (s : List Char) : Prop :=
  s.IsChain fun b c => Text.isBlank b = true → c ≠ '#'

theorem uncommented_of_isWord (h : ∀ c ∈ s, Text.isBlank c = false) : Uncommented s := by
  induction s with
  | nil => exact .nil
  | cons c s ih =>
    obtain ⟨hc, hs⟩ := List.forall_mem_cons.mp h
    refine List.isChain_cons.mpr ⟨fun d _ hb => ?_, ih hs⟩
    rw [hc] at hb
    cases hb

theorem uncommented_of_isGap (h : IsGap s) : Uncommented s := by
  induction s with
  | nil => exact .nil
  | cons c s ih =>
    refine List.isChain_cons.mpr ⟨fun d hd _ => ?_, ih (List.forall_mem_cons.mp h).2⟩
    rintro rfl
    exact absurd (h '#' (List.mem_cons_of_mem c (List.mem_of_mem_head? hd))) (by decide)

theorem Uncommented.append (hs : Uncommented s) (ht : Uncommented t)
    (hhead : t.head? ≠ some '#') : Uncommented (s ++ t) := by
  refine List.isChain_append.mpr ⟨hs, ht, fun b _ c hc _ => ?_⟩
  rintro rfl
  exact hhead hc

theorem cutComment_append (hs : Uncommented s) (ht : t.head? ≠ some '#') :
    cutComment (s ++ t) = s ++ cutComment t := by
  induction s with
  | nil => rfl
  | cons c s ih =>
    obtain ⟨hc, hs⟩ := List.isChain_cons.mp hs
    rw [List.cons_append, cutComment, if_neg, ih hs, List.cons_append]
    rw [Bool.and_eq_true, decide_eq_true_eq]
    rintro ⟨hb, hnext⟩
    cases s with
    | nil => exact ht hnext
    | cons d s =>
      cases hnext
      exact hc '#' rfl hb rfl

theorem IsGap.head?_ne (h : IsGap s) : s.head? ≠ some '#' := fun hhead =>
  absurd (h '#' (List.mem_of_mem_head? hhead)) (by decide)

theorem cutComment_of_isGap (h : IsGap s) : cutComment s = s := by
  have := cutComment_append (t := []) (uncommented_of_isGap h) (by simp)
  rwa [List.append_nil, cutComment, List.append_nil] at this

theorem isGap_cutComment (gap : Gap) (text : List Char) :
    IsGap (cutComment (gap.chars ++ '#' :: text)) := by
  obtain ⟨g, b, hgap⟩ := List.eq_nil_or_concat' gap.chars |>.resolve_left gap.ne_nil
  have hall := gap.isGap
  rw [hgap] at hall ⊢
  have hg : IsGap g := fun c hc => hall c (List.mem_append_left _ hc)
  have hb : Text.isBlank b = true := hall b (List.mem_append_right _ (List.mem_singleton_self b))
  have hcut : cutComment (b :: '#' :: text) = [] := if_pos (by simp [hb])
  have hhead : (b :: '#' :: text).head? ≠ some '#' := by
    rintro ⟨⟩
    cases hb
  rwa [List.append_assoc, List.singleton_append,
    cutComment_append (uncommented_of_isGap hg) hhead, hcut, List.append_nil]

theorem exists_cutComment_tail (hs : Uncommented s) (tail : WrittenTail) :
    ∃ g, IsGap g ∧ cutComment (s ++ tail.chars) = s ++ g := by
  cases tail with
  | blanks b =>
    refine ⟨b.chars, b.isGap, ?_⟩
    rw [WrittenTail.chars, cutComment_append hs (IsGap.head?_ne b.isGap), cutComment_of_isGap b.isGap]
  | comment gap text =>
    have hhead : (gap.chars ++ '#' :: text).head? ≠ some '#' := by
      rw [List.head?_append_of_ne_nil _ gap.ne_nil]
      exact IsGap.head?_ne gap.isGap
    exact ⟨_, isGap_cutComment gap text, cutComment_append hs hhead⟩

/-! ### Paths -/

/-- The ranges of the characters that part words, and of the signs. -/
def blankOrSign : List (Nat × Nat) :=
  [(0x09, 0x0D), (0x1C, 0x20), (0x3A, 0x3A), (0x3D, 0x3D), (0x85, 0x85), (0xA0, 0xA0),
    (0x1680, 0x1680), (0x2000, 0x200A), (0x2028, 0x2029), (0x202F, 0x202F), (0x205F, 0x205F),
    (0x3000, 0x3000)]

def apart (r : Nat × Nat) : Bool := blankOrSign.all fun b => r.2 < b.1 || b.2 < r.1

theorem exists_range_of_not_plain {c : Char} (h : isPlainPathChar c = false) :
    ∃ b ∈ blankOrSign, b.1 ≤ c.toNat ∧ c.toNat ≤ b.2 := by
  simp only [isPlainPathChar, Text.isBlank, Bool.and_eq_false_iff, Bool.not_eq_false',
    Bool.or_eq_true, Bool.and_eq_true, decide_eq_true_eq, decide_eq_false_iff_not, not_not] at h
  simp only [blankOrSign, List.mem_cons, List.not_mem_nil, or_false, exists_eq_or_imp,
    exists_eq_left]
  rcases h with (h | rfl) | rfl
  · omega
  · decide
  · decide

theorem isPlainPathChar_of_isWordChar {c : Char} (h : Text.isWordChar c = true) :
    isPlainPathChar c = true := by
  rw [Text.isWordChar, Bool.or_eq_true, decide_eq_true_eq] at h
  rcases h with rfl | h
  · decide
  · -- No letter and no number is in one of the ranges.
    have hapart : Text.letterOrNumberRanges.toList.all apart = true := by decide +kernel
    rw [Text.isLetterOrNumber, Text.inRanges, ← Array.any_toList] at h
    obtain ⟨r, hr, hrange⟩ := List.any_eq_true.mp h
    by_contra hplain
    obtain ⟨b, hb, hlow, hhigh⟩ := exists_range_of_not_plain (by simpa using hplain)
    have := List.all_eq_true.mp (List.all_eq_true.mp hapart r hr) b hb
    simp only [Bool.or_eq_true, Bool.and_eq_true, decide_eq_true_eq] at this hrange
    omega

theorem isPlainPathChar_of_isPropertyPath {path : List Char} (h : isPropertyPath path = true) :
    ∀ c ∈ path, isPlainPathChar c = true := by
  intro c hc
  rw [isPropertyPath, Bool.and_eq_true, List.all_eq_true] at h
  rcases Text.mem_splitAt '.' hc with rfl | ⟨part, hpart, hcp⟩
  · decide
  · have hsegment := h.2 part hpart
    cases part with
    | nil => cases hcp
    | cons d r =>
      rw [isPathSegment, Bool.and_eq_true, List.all_eq_true] at hsegment
      rcases List.mem_cons.mp hcp with rfl | hcr
      · have hstart : Text.isIdentifierChar c = true := by
          rw [Text.isIdentifierChar, hsegment.1, Bool.true_or]
        exact Text.of_ascii (P := fun c => Text.isIdentifierChar c = true → isPlainPathChar c = true)
          (by decide) (Text.toNat_lt_of_isIdentifierChar hstart) hstart
      · have hrest := hsegment.2 c hcr
        rw [Bool.or_eq_true, decide_eq_true_eq] at hrest
        rcases hrest with hword | rfl
        · exact isPlainPathChar_of_isWordChar hword
        · decide

theorem isBlank_of_isPlainPathChar {c : Char} (h : isPlainPathChar c = true) :
    Text.isBlank c = false := by
  rw [isPlainPathChar, Bool.and_eq_true, Bool.and_eq_true] at h
  simpa using h.1.1

/-! ### Entries -/

namespace WrittenTokens

variable (ts : WrittenTokens)

theorem ne_nil : ts.chars ≠ [] := by
  cases ts with
  | one t => exact t.isWord.1
  | cons t gap others => exact List.append_ne_nil_of_left_ne_nil t.isWord.1 _

theorem slash_notMem_gap {gap : List Char} (h : IsGap gap) : '/' ∉ gap := fun hslash =>
  absurd (h '/' hslash) (by decide)

theorem slash_notMem : '/' ∉ ts.chars := by
  have token (t : WrittenToken) : '/' ∉ t.chars := by simpa using t.gives.plain.2
  induction ts with
  | one t => exact token t
  | cons t gap others ih =>
    rw [chars, List.mem_append, List.mem_append, not_or, not_or]
    exact ⟨token t, slash_notMem_gap gap.isGap, ih⟩

theorem head?_ne : ts.chars.head? ≠ some '#' := by
  have token (t : WrittenToken) : t.chars.head? ≠ some '#' := by simpa using t.gives.plain.1
  cases ts with
  | one t => exact token t
  | cons t gap others =>
    rw [chars, List.head?_append_of_ne_nil _ t.isWord.1]
    exact token t

theorem isBlank_getLast? : ∀ c ∈ ts.chars.getLast?, Text.isBlank c = false := by
  induction ts with
  | one t => exact fun c hc => t.isWord.2 c (List.mem_of_getLast? hc)
  | cons t gap others ih =>
    rw [chars, ← List.append_assoc, List.getLast?_append_of_ne_nil _ others.ne_nil]
    exact ih

theorem uncommented : Uncommented ts.chars := by
  induction ts with
  | one t => exact uncommented_of_isWord t.isWord.2
  | cons t gap others ih =>
    refine (uncommented_of_isWord t.isWord.2).append
      ((uncommented_of_isGap gap.isGap).append ih others.head?_ne) ?_
    rw [List.head?_append_of_ne_nil _ gap.ne_nil]
    exact IsGap.head?_ne gap.isGap

theorem spaced : Spaced (ts.toList.map (·.chars)) ts.chars := by
  have hnil : IsGap [] := fun _ hc => absurd hc List.not_mem_nil
  induction ts with
  | one t =>
    have := Spaced.cons hnil t.isWord hnil.endsWord (.nil hnil)
    rwa [List.nil_append, List.append_nil] at this
  | cons t gap others ih =>
    have hends : EndsWord (gap.chars ++ others.chars) := by
      intro c hc
      rw [List.head?_append_of_ne_nil _ gap.ne_nil] at hc
      exact gap.isGap.endsWord c hc
    exact Spaced.cons hnil t.isWord hends (ih.gap_append gap.isGap)

theorem inLine : InLine ts.chars := by
  induction ts with
  | one t => exact t.isWord.inLine
  | cons t gap others ih =>
    exact List.forall_mem_append.mpr ⟨t.isWord.inLine, List.forall_mem_append.mpr ⟨gap.inLine, ih⟩⟩

theorem forall₂_gives : List.Forall₂ (fun t x => Gives (String.ofList t) x)
    (ts.toList.map (·.chars)) (ts.toList.map (·.setting)) := by
  rw [List.forall₂_map_left_iff, List.forall₂_map_right_iff, List.forall₂_same]
  exact fun t _ => t.gives

end WrittenTokens

namespace WrittenPath

variable (path : WrittenPath compile)

theorem exists_start : ∃ c r, path.chars = c :: r ∧ Text.isBlank c = false ∧ c ≠ '#' := by
  cases path with
  | property path isPath =>
    obtain ⟨c, r, rfl, hc⟩ := exists_start_of_isPropertyPath isPath
    have hplain := isPlainPathChar_of_isPropertyPath isPath c List.mem_cons_self
    refine ⟨c, r, rfl, isBlank_of_isPlainPathChar hplain, ?_⟩
    rintro rfl
    exact absurd hc (by decide)
  | pattern body => exact ⟨'/', body ++ ['/'], rfl, by decide, by decide⟩

theorem inLine : InLine path.chars := by
  cases path with
  | property path isPath =>
    obtain ⟨c, r, rfl, -⟩ := exists_start_of_isPropertyPath isPath
    exact IsWord.inLine ⟨List.cons_ne_nil c r, fun d hd =>
      isBlank_of_isPlainPathChar (isPlainPathChar_of_isPropertyPath isPath d hd)⟩
  | pattern body _ _ inLine =>
    refine List.forall_mem_cons.mpr ⟨by decide, List.forall_mem_append.mpr ⟨inLine, ?_⟩⟩
    simp only [List.forall_mem_singleton]
    decide

theorem names : NamesPath compile path.chars path.pattern? := by
  cases path with
  | property path isPath => exact .property isPath
  | pattern body accepts _ _ compiles => exact .pattern (matcher_eq_ok.mpr ⟨accepts, compiles, rfl⟩)

end WrittenPath

namespace WrittenEntry

variable (w : WrittenEntry compile)

theorem signThen : SignThen w.behind (w.after.chars ++ w.tokens.chars) :=
  ⟨w.before.chars, w.sign, w.before.isGap, w.isSign, rfl⟩

theorem slash_notMem_behind : '/' ∉ w.behind := by
  have hsign : '/' ≠ w.sign := by
    rcases w.isSign with h | h <;> rw [h] <;> decide
  simp only [behind, List.mem_append, List.mem_cons, not_or]
  exact ⟨WrittenTokens.slash_notMem_gap w.before.isGap, hsign,
    WrittenTokens.slash_notMem_gap w.after.isGap, w.tokens.slash_notMem⟩

theorem behind_ne_nil : w.behind ≠ [] := List.append_ne_nil_of_right_ne_nil _ (List.cons_ne_nil _ _)

theorem head?_behind_ne : w.behind.head? ≠ some '#' := by
  unfold behind
  cases hb : w.before.chars with
  | nil =>
    rcases w.isSign with h | h <;> rw [h] <;> simp
  | cons c r =>
    rintro ⟨⟩
    exact absurd (w.before.isGap '#' (hb ▸ List.mem_cons_self)) (by decide)

theorem uncommented_behind : Uncommented w.behind := by
  have hsign : Text.isBlank w.sign = false ∧ w.sign ≠ '#' := by
    rcases w.isSign with h | h <;> rw [h] <;> decide
  have hafter : Uncommented (w.after.chars ++ w.tokens.chars) :=
    (uncommented_of_isGap w.after.isGap).append w.tokens.uncommented w.tokens.head?_ne
  refine (uncommented_of_isGap w.before.isGap).append (List.isChain_cons.mpr ⟨?_, hafter⟩) ?_
  · intro c _ hblank
    rw [hsign.1] at hblank
    cases hblank
  · exact fun hhead => hsign.2 (Option.some.inj hhead)

theorem isBlank_getLast? : ∀ c ∈ w.behind.getLast?, Text.isBlank c = false := by
  have hne : w.after.chars ++ w.tokens.chars ≠ [] :=
    List.append_ne_nil_of_right_ne_nil _ w.tokens.ne_nil
  rw [behind, List.getLast?_append_of_ne_nil _ (List.cons_ne_nil _ _),
    List.getLast?_cons_of_ne_nil hne, List.getLast?_append_of_ne_nil _ w.tokens.ne_nil]
  exact w.tokens.isBlank_getLast?

theorem inLine_behind : InLine w.behind := by
  have hsign : Text.isLineEnd w.sign = false := by
    rcases w.isSign with h | h <;> rw [h] <;> decide
  exact List.forall_mem_append.mpr ⟨w.before.inLine, List.forall_mem_cons.mpr ⟨hsign,
    List.forall_mem_append.mpr ⟨w.after.inLine, w.tokens.inLine⟩⟩⟩

end WrittenEntry

theorem splitPattern_of_head? {raw : List Char}
    (h : (raw.dropWhile Text.isBlank).head? ≠ some '/') : splitPattern raw = ([], raw) := by
  unfold splitPattern
  split
  · next heq =>
    rw [heq] at h
    exact absurd rfl h
  · rfl

namespace WrittenEntry

variable (w : WrittenEntry compile)

theorem trimWhere_core {gap : List Char} (h : IsGap gap) :
    Text.trimWhere Text.isBlank (w.lead.chars ++ (w.path.chars ++ w.behind ++ gap)) =
      w.path.chars ++ w.behind := by
  obtain ⟨c, r, hpath, hblank, -⟩ := w.path.exists_start
  refine Text.trimWhere_append w.lead.isGap h ?_ ?_
  · rw [hpath]
    rintro _ ⟨⟩
    exact hblank
  · rw [List.getLast?_append_of_ne_nil _ w.behind_ne_nil]
    exact w.isBlank_getLast?

theorem stripComment_of_property {path : List Char} {isPath : isPropertyPath path = true}
    (h : w.path = .property path isPath) : stripComment w.chars = w.path.chars ++ w.behind := by
  obtain ⟨c, r, hpath, hblank, hhash⟩ := w.path.exists_start
  have hslash : c ≠ '/' := by
    rintro rfl
    refine head?_of_isPropertyPath isPath ?_
    rw [h] at hpath
    exact congrArg List.head? hpath
  have hword : ∀ c ∈ w.path.chars, Text.isBlank c = false := by
    rw [h]
    exact fun c hc => isBlank_of_isPlainPathChar (isPlainPathChar_of_isPropertyPath isPath c hc)
  have hsplit : splitPattern w.chars = ([], w.chars) := by
    refine splitPattern_of_head? ?_
    rw [chars, List.dropWhile_append_of_pos w.lead.isGap, hpath, List.cons_append,
      List.cons_append, List.dropWhile_cons_of_neg (by simp [hblank])]
    exact fun hc => hslash (Option.some.inj hc)
  have hhead : w.chars.head? ≠ some '#' := by
    rw [chars, hpath]
    cases hlead : w.lead.chars with
    | nil => exact fun hc => hhash (Option.some.inj hc)
    | cons b r =>
      rintro ⟨⟩
      exact absurd (w.lead.isGap '#' (hlead ▸ List.mem_cons_self)) (by decide)
  have huncommented : Uncommented (w.lead.chars ++ (w.path.chars ++ w.behind)) := by
    refine (uncommented_of_isGap w.lead.isGap).append
      ((uncommented_of_isWord hword).append w.uncommented_behind w.head?_behind_ne) ?_
    rw [hpath]
    exact fun hc => hhash (Option.some.inj hc)
  have hraw : w.chars = w.lead.chars ++ (w.path.chars ++ w.behind) ++ w.tail.chars := by
    simp only [chars, List.append_assoc]
  obtain ⟨gap, hgap, hcut⟩ := exists_cutComment_tail huncommented w.tail
  rw [stripComment, hsplit]
  dsimp only
  rw [List.nil_append, dropComment, if_neg hhead, hraw, hcut, List.append_assoc]
  exact w.trimWhere_core hgap

/-- The pattern of a line is set apart before the comment is looked for. -/
theorem stripComment_of_pattern {body : List Char} {accepts : String → Bool}
    {ne_nil : body ≠ []} {inLine : InLine body}
    {compiles : compile (String.ofList body) = .ok accepts} {noneCloses : NoneCloses body}
    (h : w.path = .pattern body accepts ne_nil inLine compiles noneCloses) :
    stripComment w.chars = w.path.chars ++ w.behind := by
  have hraw : w.chars = w.lead.chars ++ '/' :: (body ++ '/' :: (w.behind ++ w.tail.chars)) := by
    simp [chars, h, WrittenPath.chars]
  have hcloses : Closes (w.behind ++ w.tail.chars) := by
    obtain ⟨gap, sign, hg, hsign, heq⟩ := w.signThen
    exact ⟨_, gap, sign, hg, hsign, by rw [heq, List.append_assoc, List.cons_append]⟩
  obtain ⟨htake, hdrop⟩ := takeWhile_append
    (s := '/' :: (body ++ '/' :: (w.behind ++ w.tail.chars))) w.lead.isGap
    (by rintro _ ⟨⟩; decide)
  have hsplit : splitPattern w.chars =
      (w.lead.chars ++ '/' :: body ++ ['/'], w.behind ++ w.tail.chars) := by
    rw [hraw, splitPattern, htake, hdrop]
    simp only [cutAtFirstSlash?_append noneCloses hcloses]
  have hhead : (w.behind ++ w.tail.chars).head? ≠ some '#' := by
    rw [List.head?_append_of_ne_nil _ w.behind_ne_nil]
    exact w.head?_behind_ne
  obtain ⟨gap, hgap, hcut⟩ := exists_cutComment_tail w.uncommented_behind w.tail
  rw [stripComment, hsplit]
  dsimp only
  rw [dropComment, if_neg hhead, hcut]
  have := w.trimWhere_core hgap
  rw [h] at this ⊢
  simpa [WrittenPath.chars] using this

theorem stripComment_chars : stripComment w.chars = w.path.chars ++ w.behind := by
  cases h : w.path with
  | property => exact h ▸ w.stripComment_of_property h
  | pattern => exact h ▸ w.stripComment_of_pattern h

theorem parts : Parts (w.path.chars ++ w.behind) w.path.chars (w.after.chars ++ w.tokens.chars) := by
  cases hpath : w.path with
  | property path isPath =>
    obtain ⟨c, r, rfl, hc⟩ := exists_start_of_isPropertyPath isPath
    refine .word (List.cons_ne_nil c r) (isPlainPathChar_of_isPropertyPath isPath) w.signThen ?_
    intro body x heq _
    obtain ⟨rfl, -⟩ := List.cons.inj heq
    exact absurd hc (by decide)
  | pattern body _ ne_nil =>
    have := Parts.pattern ne_nil w.signThen (noneCloses_of_notMem w.slash_notMem_behind)
    simpa [WrittenPath.chars] using this

theorem reads (number : Nat) :
    Reads compile (number, w.path.chars ++ w.behind) (w.entry number) := by
  refine ⟨rfl, _, _, _, ?_, ?_, w.tokens.spaced.gap_append w.after.isGap, ?_,
    w.tokens.forall₂_gives, rfl⟩
  · rw [entry, String.toList_ofList]
    exact w.parts
  · rw [entry, String.toList_ofList]
    exact w.path.names
  · cases w.tokens <;> exact List.cons_ne_nil _ _

end WrittenEntry

/-! ### Texts -/

theorem trimWhere_of_isGap (h : IsGap s) : Text.trimWhere Text.isBlank s = [] := by
  have hnil : IsGap [] := fun _ hc => absurd hc List.not_mem_nil
  have := Text.trimWhere_append (s := []) h hnil (by simp) (by simp)
  rwa [List.append_nil, List.append_nil] at this

namespace WrittenLine

theorem inLine (l : WrittenLine compile) : InLine l.chars := by
  cases l with
  | blank b => exact b.inLine
  | comment lead text inLine =>
    exact List.forall_mem_append.mpr ⟨lead.inLine, List.forall_mem_cons.mpr ⟨by decide, inLine⟩⟩
  | entry w =>
    have htail : InLine w.tail.chars := by
      cases w.tail with
      | blanks b => exact b.inLine
      | comment gap text inLine =>
        exact List.forall_mem_append.mpr
          ⟨gap.inLine, List.forall_mem_cons.mpr ⟨by decide, inLine⟩⟩
    exact List.forall_mem_append.mpr ⟨w.lead.inLine, List.forall_mem_append.mpr
      ⟨List.forall_mem_append.mpr ⟨w.path.inLine, w.inLine_behind⟩, htail⟩⟩

theorem stripComment_blank (b : Blanks) : stripComment b.chars = [] := by
  have hnil : (b.chars ++ []).dropWhile Text.isBlank = [] := List.dropWhile_append_of_pos b.isGap
  rw [List.append_nil] at hnil
  rw [stripComment, splitPattern_of_head? (by simp [hnil])]
  dsimp only
  rw [List.nil_append, dropComment, if_neg (IsGap.head?_ne b.isGap), cutComment_of_isGap b.isGap,
    trimWhere_of_isGap b.isGap]

theorem stripComment_comment (lead : Blanks) (text : List Char) :
    stripComment (lead.chars ++ '#' :: text) = [] := by
  have hdrop : (lead.chars ++ '#' :: text).dropWhile Text.isBlank = '#' :: text := by
    rw [List.dropWhile_append_of_pos lead.isGap]
    exact List.dropWhile_cons_of_neg (by decide)
  rw [stripComment, splitPattern_of_head? (by simp [hdrop])]
  dsimp only
  rw [List.nil_append]
  refine trimWhere_of_isGap ?_
  unfold dropComment
  split
  · exact fun _ hc => absurd hc List.not_mem_nil
  · next hhead =>
    have hne : lead.chars ≠ [] := fun hnil => hhead (by rw [hnil]; rfl)
    exact isGap_cutComment ⟨lead, hne⟩ text

end WrittenLine

theorem reads_entryLines (lines : List (WrittenLine compile)) (start : Nat) :
    List.Forall₂ (Reads compile)
    (entryLines (((lines.map (·.chars)).zipIdx start).map fun p => (p.2 + 1, p.1)))
    ((lines.zipIdx start).filterMap fun l => l.1.entryAt (l.2 + 1)) := by
  induction lines generalizing start with
  | nil => exact .nil
  | cons l lines ih =>
    have ih := ih (start + 1)
    unfold entryLines at ih ⊢
    rw [List.map_cons, List.zipIdx_cons, List.map_cons, List.map_cons, List.filter_cons,
      List.zipIdx_cons, List.filterMap_cons]
    cases l with
    | blank b =>
      simpa [WrittenLine.chars, WrittenLine.stripComment_blank, WrittenLine.entryAt] using ih
    | comment lead text inLine =>
      simpa [WrittenLine.chars, WrittenLine.stripComment_comment, WrittenLine.entryAt] using ih
    | entry w =>
      have hne : (w.path.chars ++ w.behind).isEmpty = false := by
        simpa using fun _ => w.behind_ne_nil
      simp only [WrittenLine.chars, w.stripComment_chars, hne, WrittenLine.entryAt, Bool.not_false,
        if_true]
      exact .cons (w.reads (start + 1)) ih

theorem splitLines_written (lines : List (WrittenLine compile × LineBreak))
    (last : WrittenLine compile) :
    Text.splitLines (written lines last).toList = lines.map (fun l => l.1.chars) ++
      if last.chars.isEmpty then [] else [last.chars] := by
  rw [written, String.toList_ofList]
  induction lines with
  | nil => exact Text.splitLines_of_inLine last.inLine
  | cons l lines ih =>
    rw [List.flatMap_cons, List.append_assoc, List.append_assoc,
      Text.splitLines_append l.1.inLine l.2.isLineBreak, ih, List.map_cons, List.cons_append]

theorem entryAt_of_chars_nil {l : WrittenLine compile} (h : l.chars = []) (number : Nat) :
    l.entryAt number = none := by
  cases l with
  | blank | comment => rfl
  | entry w =>
    have hcore := (List.append_eq_nil_iff.mp (List.append_eq_nil_iff.mp h).2).1
    exact absurd (List.append_eq_nil_iff.mp hcore).2 w.behind_ne_nil

/-- Entries are read back in their order, however they are spaced and commented. -/
theorem parseWith_written (lines : List (WrittenLine compile × LineBreak))
    (last : WrittenLine compile) (source : String) :
    parseWith compile (written lines last) source =
      .ok ⟨entriesOf (lines.map Prod.fst ++ [last]), source⟩ ∧
    ∀ (w : WrittenEntry compile) (number : Nat) (part : Directive.Part),
      (w.entry number).settings.given? part =
        (w.tokens.toList.reverse.find? fun t => t.setting.gives.1 = part).map
          fun t => t.setting.gives.2 := by
  refine ⟨parseWith_eq_ok.mpr ⟨rfl, ?_⟩, fun w number part => ?_⟩
  · rw [numbered, splitLines_written]
    cases hlast : last.chars.isEmpty with
    | false =>
      have := reads_entryLines (lines.map Prod.fst ++ [last]) 0
      rwa [List.map_append, List.map_map] at this
    | true =>
      have hnone := entryAt_of_chars_nil (List.isEmpty_iff.mp hlast)
      have := reads_entryLines (lines.map Prod.fst) 0
      rw [List.map_map] at this
      have hlines : entriesOf (lines.map Prod.fst ++ [last]) = entriesOf (lines.map Prod.fst) := by
        simp [entriesOf, List.zipIdx_append, hnone]
      rw [if_pos rfl, List.append_nil, hlines]
      exact this
  · rw [WrittenEntry.entry, given?_ofList, ← List.map_reverse, List.find?_map, Option.map_map]
    rfl

/-- What would start a comment, end a path or close a pattern elsewhere may stand in a pattern and in
a comment. -/
example : ∃ w : WrittenEntry Pattern.compile, w.chars = " /a/#b = c/: skip # d/ = wrap".toList ∧
    w.path.chars = "/a/#b = c/".toList ∧ w.path.pattern?.isSome := by
  obtain ⟨p, hp⟩ := Option.isSome_iff_exists.mp
    (by decide +kernel : (Pattern.parse? (String.ofList "a/#b = c".toList)).isSome)
  have hcompiles : Pattern.compile (String.ofList "a/#b = c".toList) = .ok p.accepts := by
    rw [Pattern.compile, hp]
  have hspace : IsGap [' '] ∧ InLine [' '] := by
    simp only [IsGap, InLine, List.forall_mem_singleton]
    decide
  have hnone : IsGap [] ∧ InLine [] := by simp [IsGap, InLine]
  have hskip : "skip".toList.all (fun c => !Text.isBlank c) = true := by decide
  have hword : IsWord "skip".toList :=
    ⟨by decide, fun c hc => by simpa using List.all_eq_true.mp hskip c hc⟩
  have inLine {s : List Char} (h : s.all (fun c => !Text.isLineEnd c) = true) : InLine s :=
    fun c hc => by simpa using List.all_eq_true.mp h c hc
  have hopen : NoneCloses "a/#b = c".toList := cutAtLastSlash?_eq_none.mp (by decide +kernel)
  exact ⟨⟨⟨[' '], hspace.1, hspace.2⟩, .pattern "a/#b = c".toList p.accepts (by decide)
      (inLine (by decide)) hcompiles hopen,
    ⟨[], hnone.1, hnone.2⟩, ':', Or.inr rfl, ⟨[' '], hspace.1, hspace.2⟩,
    .one ⟨"skip".toList, .wrap false, hword, .flag (by decide +kernel)⟩,
    .comment ⟨⟨[' '], hspace.1, hspace.2⟩, List.cons_ne_nil _ _⟩ " d/ = wrap".toList
      (inLine (by decide))⟩,
    rfl, rfl, rfl⟩

end Enfold.ControlFile
