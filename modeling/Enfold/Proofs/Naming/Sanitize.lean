import Enfold.Naming.Sanitize
import Enfold.Proofs.Naming.Suffix

/-! # The characters of names

Sanitized names are made of the characters of identifiers, and neither the default escapes nor a
number at the end adds any other. So no name that is derived for a class holds a point.
-/

namespace Enfold

namespace Text

variable {c : Char}

theorem toNat_lt_of_isIdentifierChar (h : isIdentifierChar c = true) : c.toNat < 128 := by
  have hle {a : Char} (ha : a.toNat < 128) (h : c ≤ a) : c.toNat < 128 :=
    Nat.lt_of_le_of_lt (Char.le_def.mp h) ha
  simp only [isIdentifierChar, isIdentifierStart, isAsciiLetter, isAsciiLower, isAsciiUpper,
    isAsciiDigit, Bool.or_eq_true, Bool.and_eq_true, decide_eq_true_eq] at h
  rcases h with ((h | h) | rfl) | h
  · exact hle (by decide) h.2
  · exact hle (by decide) h.2
  · decide
  · exact hle (by decide) h.2

theorem isIdentifierChar_of_isIdentifier {s : List Char} (h : isIdentifier s = true) :
    ∀ c ∈ s, isIdentifierChar c = true := by
  cases s with
  | nil => cases h
  | cons a r =>
    rw [isIdentifier, Bool.and_eq_true, List.all_eq_true] at h
    refine List.forall_mem_cons.mpr ⟨?_, h.2⟩
    rw [isIdentifierChar, h.1, Bool.true_or]

/-- What is checked for every ASCII character by number holds of them all. -/
theorem of_ascii {P : Char → Prop} (all : ∀ n < 128, P (Char.ofNat n)) (hc : c.toNat < 128) :
    P c := by
  have := all c.toNat hc
  rwa [Char.ofNat_toNat] at this

theorem isIdentifierChar_changeCase (h : isIdentifierChar c = true) :
    isIdentifierChar c.toLower = true ∧ isIdentifierChar c.toUpper = true :=
  of_ascii (P := fun c => isIdentifierChar c = true →
    isIdentifierChar c.toLower = true ∧ isIdentifierChar c.toUpper = true) (by decide)
    (toNat_lt_of_isIdentifierChar h) h

theorem mem_of_mem_trimWhere {p : Char → Bool} {s : List Char} (h : c ∈ trimWhere p s) :
    c ∈ s := by
  unfold trimWhere at h
  have := (List.dropWhile_sublist p).subset (List.mem_reverse.mp h)
  exact (List.dropWhile_sublist p).subset (List.mem_reverse.mp this)

theorem mem_of_mem_splitAt {sep : Char} {s part : List Char} (hp : part ∈ splitAt sep s)
    (h : c ∈ part) : c ∈ s := by
  induction s generalizing part with
  | nil =>
    rw [splitAt, List.mem_singleton] at hp
    exact hp ▸ h
  | cons a s ih =>
    unfold splitAt at hp
    split at hp
    · rcases List.mem_cons.mp hp with rfl | hp
      · cases h
      · exact List.mem_cons_of_mem _ (ih hp h)
    · split at hp
      · next hs =>
        obtain rfl := List.mem_singleton.mp hp
        exact List.mem_cons.mpr (Or.inl (List.mem_singleton.mp h))
      · next first rest hs =>
        rw [hs] at ih
        rcases List.mem_cons.mp hp with rfl | hp
        · rcases List.mem_cons.mp h with rfl | h
          · exact List.mem_cons_self
          · exact List.mem_cons_of_mem _ (ih List.mem_cons_self h)
        · exact List.mem_cons_of_mem _ (ih (List.mem_cons_of_mem _ hp) h)

end Text

namespace Naming

open Text

variable {c : Char} {s : List Char}

theorem mem_separateWords (h : c ∈ separateWords s) : c ∈ s ∨ c = '_' := by
  fun_induction separateWords s with
  | case1 a b r hab ih =>
    rcases List.mem_cons.mp h with rfl | h
    · exact Or.inl List.mem_cons_self
    rcases List.mem_cons.mp h with rfl | h
    · exact Or.inr rfl
    · exact (ih h).imp_left (List.mem_cons_of_mem _)
  | case2 a b r hab ih =>
    rcases List.mem_cons.mp h with rfl | h
    · exact Or.inl List.mem_cons_self
    · exact (ih h).imp_left (List.mem_cons_of_mem _)
  | case3 s hs => exact Or.inl h

theorem mem_of_mem_collapseUnderscores (h : c ∈ collapseUnderscores s) : c ∈ s := by
  fun_induction collapseUnderscores s with
  | case1 a b r hab ih => exact List.mem_cons_of_mem _ (ih h)
  | case2 a b r hab ih =>
    rcases List.mem_cons.mp h with rfl | h
    · exact List.mem_cons_self
    · exact List.mem_cons_of_mem _ (ih h)
  | case3 s hs => exact h

theorem isNameChar_of_mem_clean (h : c ∈ clean s) : isNameChar c = true := by
  have field : ∀ c ∈ "field".toList, isNameChar c = true := List.all_eq_true.mp (by decide)
  have kept {c : Char} (h : c ∈ trimWhere (fun c => c = '_' || c = '-')
      (s.map fun c => if isNameChar c then c else '_')) : isNameChar c = true := by
    obtain ⟨a, -, rfl⟩ := List.mem_map.mp (mem_of_mem_trimWhere h)
    split
    · assumption
    · decide
  unfold clean at h
  dsimp only at h
  split at h
  · exact field c h
  · next first rest hs =>
    split at h
    · rcases List.mem_cons.mp h with rfl | h
      · decide
      · exact kept h
    · exact kept h

theorem isIdentifierChar_of_mem_toSnake (hs : ∀ c ∈ s, isNameChar c = true) (h : c ∈ toSnake s) :
    isIdentifierChar c = true := by
  unfold toSnake at h
  obtain ⟨a, ha, rfl⟩ :=
    List.mem_map.mp (mem_of_mem_collapseUnderscores (mem_of_mem_trimWhere h))
  refine (isIdentifierChar_changeCase ?_).1
  rcases mem_separateWords ha with ha | rfl
  · obtain ⟨b, hb, rfl⟩ := List.mem_map.mp ha
    have := hs b hb
    split
    · decide
    · simpa [isNameChar, *] using this
  · decide

theorem isIdentifierChar_of_mem_toPascal (hs : ∀ c ∈ s, isNameChar c = true)
    (h : c ∈ toPascal s) : isIdentifierChar c = true := by
  unfold toPascal at h
  obtain ⟨word, hw, hc⟩ := List.mem_flatMap.mp h
  have hword {c : Char} (hc : c ∈ word) : isIdentifierChar c = true :=
    isIdentifierChar_of_mem_toSnake hs (mem_of_mem_splitAt hw hc)
  cases word with
  | nil => cases hc
  | cons a r =>
    rcases List.mem_cons.mp hc with rfl | hc
    · exact (isIdentifierChar_changeCase (hword List.mem_cons_self)).2
    · exact hword (List.mem_cons_of_mem _ hc)

theorem apply_defaultEscapes (name : String) :
    defaultEscapes.apply name = name ∨ defaultEscapes.apply name = name ++ "_" := by
  have get (ws : List String) (x : String)
      (h : Assoc.get? name (ws.map fun w => (w, w ++ "_")) = some x) : x = name ++ "_" := by
    induction ws with
    | nil => cases h
    | cons w ws ih =>
      rw [List.map_cons, Assoc.get?] at h
      split at h
      · next e => rw [← Option.some.inj h, e]
      · exact ih h
  unfold Escapes.apply
  cases h : Assoc.get? name defaultEscapes with
  | none => exact Or.inl rfl
  | some x => exact Or.inr (get _ x h)

theorem isIdentifierChar_of_mem_apply {name : String}
    (hn : ∀ c ∈ name.toList, isIdentifierChar c = true)
    (h : c ∈ (defaultEscapes.apply name).toList) : isIdentifierChar c = true := by
  rcases apply_defaultEscapes name with e | e <;> rw [e] at h
  · exact hn c h
  · rw [String.toList_append, List.mem_append] at h
    rcases h with h | h
    · exact hn c h
    · obtain rfl : c = '_' := by simpa using h
      decide

/-- A sanitized name is made of letters, digits and underscores. -/
theorem isIdentifierChar_of_mem_sanitize {case : Case} {name : String}
    (h : c ∈ (sanitize defaultEscapes case name).toList) : isIdentifierChar c = true := by
  refine isIdentifierChar_of_mem_apply (fun c hc => ?_) h
  rw [String.toList_ofList] at hc
  cases case with
  | snake => exact isIdentifierChar_of_mem_toSnake (fun _ => isNameChar_of_mem_clean) hc
  | pascal => exact isIdentifierChar_of_mem_toPascal (fun _ => isNameChar_of_mem_clean) hc

end Naming

/-! ### Names without points -/

/-- A name that is a single segment of a path. -/
def Pointless (name : String) : Prop := '.' ∉ name.toList

instance (name : String) : Decidable (Pointless name) := inferInstanceAs (Decidable ('.' ∉ _))

theorem pointless_of_isIdentifierChar {name : String}
    (h : ∀ c ∈ name.toList, Text.isIdentifierChar c = true) : Pointless name := fun hm =>
  absurd (h '.' hm) (by decide)

theorem Pointless.append {a b : String} (ha : Pointless a) (hb : Pointless b) :
    Pointless (a ++ b) := by
  rw [Pointless, String.toList_append, List.mem_append]
  exact fun h => h.elim ha hb

theorem Pointless.of_append {a b : String} (h : Pointless (a ++ b)) : Pointless a := by
  rw [Pointless, String.toList_append, List.mem_append, not_or] at h
  exact h.1

theorem pointless_toString (i : Nat) : Pointless (toString i) := by
  intro h
  have hd : (toString i).toList = Nat.toDigits 10 i := by simp
  rw [hd] at h
  exact absurd (Nat.isDigit_of_mem_toDigits (by decide) (by decide) h) (by decide)

theorem pointless_apply {name : String} (h : Pointless name) :
    Pointless (Naming.defaultEscapes.apply name) := by
  rcases Naming.apply_defaultEscapes name with e | e <;> rw [e]
  · exact h
  · exact h.append (by unfold Pointless; decide)

end Enfold
