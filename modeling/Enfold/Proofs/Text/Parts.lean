import Mathlib.Data.List.TakeWhile
import Enfold.Text.Blank
import Enfold.Text.Identifier

/-! # The parts of a text

A text is cut at a separator, into words, and into lines. Each way of cutting undoes a way of putting
the parts together, of which there are many: the words of a text say nothing about the blanks between
them.
-/

namespace Enfold.Text

variable {sep c : Char} {l s s' r gap w : List Char} {ws : List (List Char)}

/-! ### Separators -/

theorem cutAt_of_notMem (h : sep ∉ l) : cutAt sep l = (l, none) := by
  induction l with
  | nil => rfl
  | cons c l ih =>
    obtain ⟨hc, hl⟩ := List.ne_and_not_mem_of_not_mem_cons h
    rw [cutAt, if_neg hc.symm, ih hl]

theorem cutAt_append (h : sep ∉ l) (r : List Char) : cutAt sep (l ++ sep :: r) = (l, some r) := by
  induction l with
  | nil => rw [List.nil_append, cutAt, if_pos rfl]
  | cons c l ih =>
    obtain ⟨hc, hl⟩ := List.ne_and_not_mem_of_not_mem_cons h
    rw [List.cons_append, cutAt, if_neg hc.symm, ih hl]

theorem eq_append_of_cutAt {before after : List Char} (h : cutAt sep l = (before, some after)) :
    l = before ++ sep :: after := by
  induction l generalizing before with
  | nil => cases h
  | cons c l ih =>
    rw [cutAt] at h
    split at h
    · next hc =>
      cases h
      rw [hc, List.nil_append]
    · cases hl : cutAt sep l with
      | mk a b =>
        rw [hl] at h
        cases h
        rw [ih hl, List.cons_append]

theorem cutAtLast_of_notMem (h : sep ∉ l) : cutAtLast sep l = (none, l) := by
  rw [cutAtLast, cutAt_of_notMem (mt List.mem_reverse.mp h)]
  simp

theorem cutAtLast_append (l : List Char) (h : sep ∉ r) :
    cutAtLast sep (l ++ sep :: r) = (some l, r) := by
  have : (l ++ sep :: r).reverse = r.reverse ++ sep :: l.reverse := by simp
  rw [cutAtLast, this, cutAt_append (mt List.mem_reverse.mp h)]
  simp

theorem mem_splitAt (sep : Char) (h : c ∈ l) : c = sep ∨ ∃ part ∈ splitAt sep l, c ∈ part := by
  induction l with
  | nil => cases h
  | cons d l ih =>
    rw [splitAt]
    split
    · next hd =>
      rcases List.mem_cons.mp h with rfl | h
      · exact Or.inl hd
      · exact (ih h).imp_right fun ⟨part, hpart, hc⟩ => ⟨part, List.mem_cons_of_mem _ hpart, hc⟩
    · rcases List.mem_cons.mp h with rfl | h
      · cases splitAt sep l with
        | nil => exact Or.inr ⟨[c], List.mem_singleton_self _, List.mem_singleton_self c⟩
        | cons part parts => exact Or.inr ⟨c :: part, List.mem_cons_self, List.mem_cons_self⟩
      · refine (ih h).imp_right fun ⟨part, hpart, hc⟩ => ?_
        cases hsplit : splitAt sep l with
        | nil =>
          rw [hsplit] at hpart
          cases hpart
        | cons first parts =>
          rw [hsplit] at hpart
          rcases List.mem_cons.mp hpart with rfl | hpart
          · exact ⟨d :: part, List.mem_cons_self, List.mem_cons_of_mem d hc⟩
          · exact ⟨part, List.mem_cons_of_mem _ hpart, hc⟩

/-! ### Words -/

def IsGap (s : List Char) : Prop := ∀ c ∈ s, isBlank c = true

def IsWord (s : List Char) : Prop := s ≠ [] ∧ ∀ c ∈ s, isBlank c = false

/-- Starts with a blank or is empty, so that a word ends before it. -/
def EndsWord (s : List Char) : Prop := ∀ c ∈ s.head?, isBlank c = true

/-- The text consists of the words, with blanks before, after and between them. -/
inductive Spaced : List (List Char) → List Char → Prop
  | nil {gap : List Char} : IsGap gap → Spaced [] gap
  | cons {gap w s : List Char} {ws : List (List Char)} : IsGap gap → IsWord w → EndsWord s →
      Spaced ws s → Spaced (w :: ws) (gap ++ (w ++ s))

theorem IsGap.append (h : IsGap s) (h' : IsGap s') : IsGap (s ++ s') := fun c hc =>
  (List.mem_append.mp hc).elim (h c) (h' c)

theorem IsGap.cons (hc : isBlank c = true) (h : IsGap s) : IsGap (c :: s) :=
  List.forall_mem_cons.mpr ⟨hc, h⟩

theorem IsGap.endsWord (h : IsGap s) : EndsWord s := fun c hc => h c (List.mem_of_mem_head? hc)

theorem endsWord_cons (hc : isBlank c = true) : EndsWord (c :: s) := by
  rintro _ ⟨⟩
  exact hc

theorem Spaced.gap_append (hg : IsGap gap) (h : Spaced ws s) : Spaced ws (gap ++ s) := by
  cases h with
  | nil hs => exact .nil (hg.append hs)
  | cons hgap hw he hs =>
    rw [← List.append_assoc]
    exact .cons (hg.append hgap) hw he hs

theorem Spaced.isWord (h : Spaced ws s) : ∀ w ∈ ws, IsWord w := by
  induction h with
  | nil => exact fun _ hw => absurd hw List.not_mem_nil
  | cons _ hw _ _ ih => exact List.forall_mem_cons.mpr ⟨hw, ih⟩

/-- What stands before the first blank, and the words after it. -/
def leadingWord (s : List Char) : List Char × List (List Char) :=
  s.foldr (fun c acc =>
    if isBlank c then ([], if acc.1.isEmpty then acc.2 else acc.1 :: acc.2)
    else (c :: acc.1, acc.2)) ([], [])

theorem splitBlanks_eq (s : List Char) : splitBlanks s =
    if (leadingWord s).1.isEmpty then (leadingWord s).2
    else (leadingWord s).1 :: (leadingWord s).2 := rfl

theorem leadingWord_of_endsWord (h : EndsWord s) : leadingWord s = ([], splitBlanks s) := by
  cases s with
  | nil => rfl
  | cons c s =>
    have hstep : leadingWord (c :: s) = ([], splitBlanks s) := if_pos (h c rfl)
    rw [splitBlanks_eq, hstep]
    rfl

theorem leadingWord_append (hw : ∀ c ∈ w, isBlank c = false) (s : List Char) :
    leadingWord (w ++ s) = (w ++ (leadingWord s).1, (leadingWord s).2) := by
  induction w with
  | nil => rfl
  | cons c w ih =>
    obtain ⟨hc, hw⟩ := List.forall_mem_cons.mp hw
    have hstep : leadingWord (c :: (w ++ s)) =
        (c :: (leadingWord (w ++ s)).1, (leadingWord (w ++ s)).2) := if_neg (by simp [hc])
    rw [List.cons_append, hstep, ih hw, List.cons_append]

theorem splitBlanks_gap_append (hg : IsGap gap) (s : List Char) :
    splitBlanks (gap ++ s) = splitBlanks s := by
  induction gap with
  | nil => rfl
  | cons c gap ih =>
    obtain ⟨hc, hg⟩ := List.forall_mem_cons.mp hg
    have hstep : leadingWord (c :: (gap ++ s)) = ([], splitBlanks (gap ++ s)) := if_pos hc
    rw [List.cons_append, splitBlanks_eq, hstep, ← ih hg]
    rfl

theorem splitBlanks_word_append (hw : IsWord w) (hs : EndsWord s) :
    splitBlanks (w ++ s) = w :: splitBlanks s := by
  rw [splitBlanks_eq, leadingWord_append hw.2, leadingWord_of_endsWord hs, List.append_nil,
    if_neg (by simpa using hw.1)]

theorem splitBlanks_of_spaced (h : Spaced ws s) : splitBlanks s = ws := by
  induction h with
  | nil hg =>
    have := splitBlanks_gap_append hg []
    rwa [List.append_nil] at this
  | cons hg hw he _ ih => rw [splitBlanks_gap_append hg, splitBlanks_word_append hw he, ih]

theorem exists_spaced (s : List Char) : ∃ ws, Spaced ws s := by
  induction s with
  | nil => exact ⟨[], .nil fun _ hc => absurd hc List.not_mem_nil⟩
  | cons c s ih =>
    obtain ⟨ws, h⟩ := ih
    have hnil : IsGap [] := fun _ hc => absurd hc List.not_mem_nil
    by_cases hc : isBlank c = true
    · have hgap : IsGap [c] := hnil.cons hc
      exact ⟨ws, h.gap_append hgap⟩
    · have hc : isBlank c = false := by simpa using hc
      have hw : IsWord [c] := ⟨List.cons_ne_nil c [], by simpa using hc⟩
      cases h with
      | nil hg => exact ⟨[[c]], .cons hnil hw hg.endsWord (.nil hg)⟩
      | @cons gap w s ws hg hword he hs =>
        cases gap with
        | nil =>
          -- The character belongs to the word that follows.
          refine ⟨(c :: w) :: ws, .cons (w := c :: w) hnil ⟨List.cons_ne_nil c w, ?_⟩ he hs⟩
          exact List.forall_mem_cons.mpr ⟨hc, hword.2⟩
        | cons b gap =>
          have hb := endsWord_cons (s := gap ++ (w ++ s)) (hg b List.mem_cons_self)
          exact ⟨[c] :: w :: ws, .cons hnil hw hb (.cons hg hword he hs)⟩

/-- Words are what any blanks part. -/
theorem splitBlanks_eq_iff : splitBlanks s = ws ↔ Spaced ws s := by
  constructor
  · rintro rfl
    obtain ⟨ws, h⟩ := exists_spaced s
    exact (splitBlanks_of_spaced h) ▸ h
  · exact splitBlanks_of_spaced

theorem trimWhere_append {p : Char → Bool} {before after : List Char}
    (hbefore : ∀ c ∈ before, p c = true) (hafter : ∀ c ∈ after, p c = true)
    (hhead : ∀ c ∈ s.head?, p c = false) (hlast : ∀ c ∈ s.getLast?, p c = false) :
    trimWhere p (before ++ (s ++ after)) = s := by
  have stop {l : List Char} (h : ∀ c ∈ l.head?, p c = false) : l.dropWhile p = l := by
    cases l with
    | nil => rfl
    | cons c l => exact List.dropWhile_cons_of_neg (by simp [h c rfl])
  rw [trimWhere, List.dropWhile_append_of_pos hbefore]
  cases s with
  | nil =>
    have hnil : (after ++ []).dropWhile p = [] := List.dropWhile_append_of_pos hafter
    rw [List.append_nil] at hnil
    rw [List.nil_append, hnil]
    rfl
  | cons c s =>
    have hfront : (c :: s ++ after).dropWhile p = c :: s ++ after :=
      List.dropWhile_cons_of_neg (by simp [hhead c rfl])
    rw [hfront, List.reverse_append,
      List.dropWhile_append_of_pos fun b hb => hafter b (List.mem_reverse.mp hb),
      stop (by rwa [List.head?_reverse]), List.reverse_reverse]

/-- Trimming takes away something at either end. -/
theorem exists_eq_append_trimWhere (p : Char → Bool) (s : List Char) : ∃ before after,
    (∀ c ∈ before, p c = true) ∧ (∀ c ∈ after, p c = true) ∧
      s = before ++ (trimWhere p s ++ after) := by
  refine ⟨s.takeWhile p, ((s.dropWhile p).reverse.takeWhile p).reverse, ?_, ?_, ?_⟩
  · exact fun c => List.mem_takeWhile_imp
  · exact fun c hc => List.mem_takeWhile_imp (List.mem_reverse.mp hc)
  · rw [trimWhere, ← List.reverse_append, List.takeWhile_append_dropWhile, List.reverse_reverse,
      List.takeWhile_append_dropWhile]

theorem mem_dropWhile {p : Char → Bool} (h : c ∈ s) (hp : p c = false) : c ∈ s.dropWhile p := by
  rw [← List.takeWhile_append_dropWhile (p := p) (l := s), List.mem_append] at h
  refine h.resolve_left fun hmem => ?_
  rw [List.mem_takeWhile_imp hmem] at hp
  cases hp

theorem mem_trimWhere {p : Char → Bool} (h : c ∈ s) (hp : p c = false) : c ∈ trimWhere p s :=
  List.mem_reverse.mpr (mem_dropWhile (List.mem_reverse.mpr (mem_dropWhile h hp)) hp)

/-! ### Lines -/

def InLine (s : List Char) : Prop := ∀ c ∈ s, isLineEnd c = false

/-- One line end; a carriage return takes the line feed behind it along. -/
def IsLineBreak (s : List Char) : Prop :=
  s = ['\r', '\n'] ∨ ∃ c, isLineEnd c = true ∧ c ≠ '\r' ∧ s = [c]

theorem isBlank_of_isLineEnd (h : isLineEnd c = true) : isBlank c = true := by
  unfold isLineEnd at h
  unfold isBlank
  simp only [Bool.or_eq_true, Bool.and_eq_true, decide_eq_true_eq] at h ⊢
  omega

theorem IsWord.inLine (h : IsWord w) : InLine w := fun c hc => by
  rw [← Bool.not_eq_true]
  intro hend
  simpa [h.2 c hc] using isBlank_of_isLineEnd hend

theorem cutLine_cons (hc : isLineEnd c = false) (s : List Char) :
    cutLine (c :: s) = (c :: (cutLine s).1, (cutLine s).2) := by
  rw [cutLine, if_neg (by simp [hc])]
  rintro r rfl -
  cases hc

theorem cutLine_append (h : InLine l) (s : List Char) :
    cutLine (l ++ s) = (l ++ (cutLine s).1, (cutLine s).2) := by
  induction l with
  | nil => rfl
  | cons c l ih =>
    obtain ⟨hc, hl⟩ := List.forall_mem_cons.mp h
    rw [List.cons_append, cutLine_cons hc, ih hl, List.cons_append]

theorem cutLine_of_isLineBreak {brk : List Char} (h : IsLineBreak brk) (s : List Char) :
    cutLine (brk ++ s) = ([], some s) := by
  rcases h with rfl | ⟨c, hc, hne, rfl⟩
  · rfl
  · rw [List.singleton_append, cutLine, if_pos hc]
    exact fun _ h _ => hne h

theorem splitLines_append {brk : List Char} (hl : InLine l) (hbrk : IsLineBreak brk)
    (s : List Char) : splitLines (l ++ (brk ++ s)) = l :: splitLines s := by
  have hcut : cutLine (l ++ (brk ++ s)) = (l, some s) := by
    rw [cutLine_append hl, cutLine_of_isLineBreak hbrk, List.append_nil]
  rw [splitLines, if_neg]
  · split
    · next heq =>
      rw [hcut] at heq
      cases heq
    · next heq =>
      rw [hcut] at heq
      cases heq
      rfl
  · intro hempty
    rw [List.isEmpty_iff.mp hempty] at hcut
    cases hcut

theorem splitLines_of_inLine (hl : InLine l) : splitLines l = if l.isEmpty then [] else [l] := by
  have hcut : cutLine l = (l, none) := by
    have := cutLine_append hl []
    rwa [List.append_nil, cutLine, List.append_nil] at this
  rw [splitLines]
  split
  · rfl
  · split
    · next heq =>
      rw [hcut] at heq
      cases heq
      rfl
    · next heq =>
      rw [hcut] at heq
      cases heq

end Enfold.Text
