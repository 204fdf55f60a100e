import Enfold.Naming.Derive
import Enfold.Proofs.Assoc
import Enfold.Proofs.Naming.Plural

/-! # Sanitized names as identifiers

A sanitized name has a letter or a digit in front: the first one of the name that it was made from,
in the case that was asked for. So it is an identifier unless that one is a digit. Nothing else can
make it unfit for code: it is never empty, and escaping leaves no reserved word.
-/

namespace Enfold

namespace Text

variable {p : Char → Bool} {c : Char} {s : List Char}

theorem head?_trimWhere (p : Char → Bool) (s : List Char) :
    (trimWhere p s).head? = s.find? fun c => !p c := by
  have hfront : (s.dropWhile p).head? = s.find? fun c => !p c := by
    induction s with
    | nil => rfl
    | cons c r ih => cases hc : p c <;> simp [hc, ih]
  have hstop := List.head?_dropWhile_not p s
  unfold trimWhere
  rw [← hfront]
  -- The first character stays, so trimming at the other end stops there at the latest.
  cases hs : s.dropWhile p with
  | nil => rfl
  | cons c r =>
    have hc : p c = false := by simpa [hs] using hstop
    rw [List.reverse_cons, List.dropWhile_append]
    split <;> simp [hc]

def isAlphanumeric (c : Char) : Bool := isAsciiLetter c || isAsciiDigit c

theorem isIdentifierChar_of_isAlphanumeric (h : isAlphanumeric c = true) :
    isIdentifierChar c = true := by
  unfold isAlphanumeric at h
  unfold isIdentifierChar isIdentifierStart
  rcases Bool.or_eq_true_iff.mp h with h | h <;> simp [h]

theorem isAlphanumeric_changeCase (h : isAlphanumeric c = true) :
    (isAlphanumeric c.toLower = true ∧ isAsciiDigit c.toLower = isAsciiDigit c) ∧
      isAlphanumeric c.toUpper = true ∧ isAsciiDigit c.toUpper = isAsciiDigit c :=
  of_ascii (P := fun c => isAlphanumeric c = true →
    (isAlphanumeric c.toLower = true ∧ isAsciiDigit c.toLower = isAsciiDigit c) ∧
      isAlphanumeric c.toUpper = true ∧ isAsciiDigit c.toUpper = isAsciiDigit c) (by decide)
    (toNat_lt_of_isIdentifierChar (isIdentifierChar_of_isAlphanumeric h)) h

theorem isIdentifierStart_of_isAlphanumeric (h : isAlphanumeric c = true) :
    isIdentifierStart c = !isAsciiDigit c :=
  of_ascii (P := fun c => isAlphanumeric c = true → isIdentifierStart c = !isAsciiDigit c)
    (by decide) (toNat_lt_of_isIdentifierChar (isIdentifierChar_of_isAlphanumeric h)) h

theorem isIdentifier_eq (hs : ∀ c ∈ s, isIdentifierChar c = true) (hc : s.head? = some c) :
    isIdentifier s = isIdentifierStart c := by
  cases s with
  | nil => cases hc
  | cons a r =>
    obtain rfl : a = c := Option.some.inj hc
    have hr : r.all isIdentifierChar = true :=
      List.all_eq_true.mpr fun b hb => hs b (List.mem_cons_of_mem a hb)
    rw [isIdentifier, hr, Bool.and_true]

end Text

namespace Naming

open Text

variable {c : Char} {s : List Char}

/-! ### What stands in front -/

theorem find?_separateWords (s : List Char) :
    (separateWords s).find? (fun c => !decide (c = '_')) = s.find? fun c => !decide (c = '_') := by
  fun_induction separateWords s with
  | case1 a b r hab ih => simp only [List.find?_cons, ih]; rfl
  | case2 a b r hab ih => simp only [List.find?_cons, ih]
  | case3 s hs => rfl

theorem find?_collapseUnderscores (s : List Char) :
    (collapseUnderscores s).find? (fun c => !decide (c = '_')) =
      s.find? fun c => !decide (c = '_') := by
  fun_induction collapseUnderscores s with
  | case1 a b r hab ih =>
    obtain ⟨rfl, rfl⟩ : a = '_' ∧ b = '_' := by simpa using hab
    rw [ih]
    rfl
  | case2 a b r hab ih => simp only [List.find?_cons, ih]
  | case3 s hs => rfl

theorem toLower_eq_underscore : c.toLower = '_' ↔ c = '_' := by
  refine ⟨fun h => ?_, by rintro rfl; rfl⟩
  by_cases hcapital : c.val ≥ 'A'.val ∧ c.val ≤ 'Z'.val
  · have hle : c.toNat ≤ 90 := UInt32.le_iff_toNat_le.mp hcapital.2
    exact of_ascii (P := fun c => c.toLower = '_' → c = '_') (by decide) (by omega) h
  · have hsame : c.toLower = c := dif_neg hcapital
    rwa [hsame] at h

theorem head?_toSnake (s : List Char) : (toSnake s).head? =
    (s.find? fun c => !(decide (c = '_') || decide (c = '-'))).map Char.toLower := by
  unfold toSnake
  rw [head?_trimWhere, find?_collapseUnderscores, List.find?_map]
  have hlower : ((fun c => !decide (c = '_')) ∘ Char.toLower) = fun c => !decide (c = '_') := by
    funext c
    simp only [Function.comp, toLower_eq_underscore]
  rw [hlower, find?_separateWords, List.find?_map]
  have hhyphen : ((fun c => !decide (c = '_')) ∘ fun c => if c = '-' then '_' else c) =
      fun c => !(decide (c = '_') || decide (c = '-')) := by
    funext c
    by_cases hc : c = '-' <;> simp [hc]
  rw [hhyphen]
  cases hf : s.find? fun c => !(decide (c = '_') || decide (c = '-')) with
  | none => rfl
  | some c =>
    have hc : ¬ c = '_' ∧ ¬ c = '-' := by simpa using List.find?_some hf
    simp [hc.2]

/-- The first letter or digit of a name, or of what stands in for it. -/
def lead (s : List Char) : Char := (s.find? isAlphanumeric).getD 'f'

theorem isAlphanumeric_lead (s : List Char) : isAlphanumeric (lead s) = true := by
  unfold lead
  cases h : s.find? isAlphanumeric with
  | none => decide
  | some c => exact List.find?_some h

theorem find?_clean (s : List Char) :
    (clean s).find? (fun c => !(decide (c = '_') || decide (c = '-'))) = some (lead s) := by
  have hsolid : ((fun c => !(decide (c = '_') || decide (c = '-'))) ∘
      fun c => if isNameChar c then c else '_') = isAlphanumeric := by
    funext c
    by_cases hu : c = '_'
    · subst hu; decide
    by_cases hh : c = '-'
    · subst hh; decide
    have hname : isNameChar c = isAlphanumeric c := by
      simp [isNameChar, isIdentifierChar, isIdentifierStart, isAlphanumeric, hu, hh]
    simp only [Function.comp, hname]
    cases isAlphanumeric c <;> simp [hu, hh]
  have hhead := head?_trimWhere (fun c => decide (c = '_') || decide (c = '-'))
    (s.map fun c => if isNameChar c then c else '_')
  rw [List.find?_map, hsolid] at hhead
  unfold clean lead
  dsimp only
  split
  · next hkept =>
    rw [hkept] at hhead
    rw [Option.map_eq_none_iff.mp hhead.symm]
    rfl
  · next c r hkept =>
    rw [hkept] at hhead
    obtain ⟨a, ha, hac⟩ := Option.map_eq_some_iff.mp hhead.symm
    have hname : isNameChar a = true := by
      rw [isNameChar, isIdentifierChar_of_isAlphanumeric (List.find?_some ha), Bool.true_or]
    obtain rfl : a = c := by simpa [hname] using hac
    have hstop : (!(decide (a = '_') || decide (a = '-'))) = true := by
      have := congrFun hsolid a
      rw [List.find?_some ha] at this
      simpa [hname] using this
    have hkeep : (a :: r).find? (fun c => !(decide (c = '_') || decide (c = '-'))) = some a :=
      List.find?_cons_of_pos hstop
    rw [hkept, ha]
    split
    · exact hkeep
    · exact hkeep

theorem head?_toPascal (hs : (toSnake s).head? = some c) (hc : c ≠ '_') :
    (toPascal s).head? = some c.toUpper := by
  unfold toPascal
  cases ht : toSnake s with
  | nil =>
    rw [ht] at hs
    cases hs
  | cons a r =>
    obtain rfl : a = c := by simpa [ht] using hs
    unfold splitAt
    rw [if_neg hc]
    split <;> simp [capitalize]

/-- A sanitized name starts with the lead of the name in either case. -/
theorem exists_head?_toCase (case : Case) (s : List Char) : ∃ c,
    (toCase case (clean s)).head? = some c ∧ isAlphanumeric c = true ∧
      isAsciiDigit c = isAsciiDigit (lead s) := by
  have hsnake : (toSnake (clean s)).head? = some (lead s).toLower := by
    rw [head?_toSnake, find?_clean, Option.map_some]
  obtain ⟨⟨hlower, hdigit⟩, -⟩ := isAlphanumeric_changeCase (isAlphanumeric_lead s)
  cases case with
  | snake => exact ⟨_, hsnake, hlower, hdigit⟩
  | pascal =>
    have hne : (lead s).toLower ≠ '_' := fun h => absurd (h ▸ hlower) (by decide)
    obtain ⟨-, hupper, hdigit'⟩ := isAlphanumeric_changeCase hlower
    exact ⟨_, head?_toPascal hsnake hne, hupper, hdigit'.trans hdigit⟩

/-! ### Escaped names -/

def reserved : List String := reservedWords ++ builtinTypes

theorem apply_defaultEscapes_notMem (name : String) : defaultEscapes.apply name ∉ reserved := by
  have escaped : ∀ w ∈ reserved, w ++ "_" ∉ reserved := by decide +kernel
  cases h : Assoc.get? name defaultEscapes with
  | none =>
    rw [Escapes.apply, h]
    have hkeys : name ∉ Assoc.keys defaultEscapes := fun hk => by
      have := Assoc.isSome_get?.mpr hk
      rw [h] at this
      cases this
    simpa [Assoc.keys, defaultEscapes, reserved, Function.comp_def] using hkeys
  | some x =>
    obtain ⟨w, hw, he⟩ := List.mem_map.mp (Assoc.mem_of_get? h)
    cases he
    rw [Escapes.apply, h]
    exact escaped name hw

/-! ### Names that are made of others -/

def leadsWithDigit (name : String) : Bool := (name.toList.find? isAlphanumeric).any isAsciiDigit

theorem isAsciiDigit_lead (name : String) :
    isAsciiDigit (lead name.toList) = leadsWithDigit name := by
  unfold lead leadsWithDigit
  cases name.toList.find? isAlphanumeric with
  | none => decide
  | some c => rfl

theorem leadsWithDigit_of_head? {name : String} (h : name.toList.head? = some c)
    (hc : isAlphanumeric c = true) : leadsWithDigit name = isAsciiDigit c := by
  cases hname : name.toList with
  | nil => simp [hname] at h
  | cons a r =>
    obtain rfl : a = c := by simpa [hname] using h
    rw [leadsWithDigit, hname, List.find?_cons_of_pos hc, Option.any_some]

/-- A name for code: an identifier that is not reserved, unless the source leads with a digit. -/
structure Sanitized (source name : String) : Prop where
  ne_empty : name ≠ ""
  chars : ∀ c ∈ name.toList, isIdentifierChar c = true
  unreserved : name ∉ reserved
  leadsWithDigit_eq : leadsWithDigit name = leadsWithDigit source
  isIdentifier_iff : isIdentifier name.toList = true ↔ leadsWithDigit source = false

theorem Sanitized.of_leadsWithDigit_eq {source other name : String} (h : Sanitized source name)
    (hs : leadsWithDigit source = leadsWithDigit other) : Sanitized other name where
  ne_empty := h.ne_empty
  chars := h.chars
  unreserved := h.unreserved
  leadsWithDigit_eq := h.leadsWithDigit_eq.trans hs
  isIdentifier_iff := hs ▸ h.isIdentifier_iff

theorem sanitized (case : Case) (name : String) :
    Sanitized name (sanitize defaultEscapes case name) := by
  obtain ⟨c, hhead, hc, hdigit⟩ := exists_head?_toCase case name.toList
  -- An underscore at the end leaves the first character.
  have hfront : (sanitize defaultEscapes case name).toList.head? = some c := by
    unfold sanitize
    rcases apply_defaultEscapes (String.ofList (toCase case (clean name.toList))) with e | e <;>
      simp [e, hhead]
  have hchars : ∀ a ∈ (sanitize defaultEscapes case name).toList, isIdentifierChar a = true :=
    fun a => isIdentifierChar_of_mem_sanitize
  rw [isAsciiDigit_lead] at hdigit
  refine ⟨fun h => ?_, hchars, apply_defaultEscapes_notMem _, ?_, ?_⟩
  · simp [h] at hfront
  · rw [leadsWithDigit_of_head? hfront hc, hdigit]
  · rw [isIdentifier_eq hchars hfront, isIdentifierStart_of_isAlphanumeric hc, hdigit,
      Bool.not_eq_true']

theorem leadsWithDigit_of_lastWord {name : String} {head word : List Char} (h : LastWord head word)
    (hname : head ++ word <+: name.toList) :
    leadsWithDigit name = (head.find? isAlphanumeric).any isAsciiDigit := by
  obtain ⟨c, r, rfl, hletter, hdigit⟩ :
      ∃ c r, word = c :: r ∧ isAlphanumeric c = true ∧ isAsciiDigit c = false := by
    cases h with
    | capital hc =>
      have hinner := (cases_of_isAsciiUpper hc).1
      refine ⟨_, _, rfl, by simp [isAlphanumeric, isAsciiLetter, hc], ?_⟩
      exact (Bool.or_eq_false_iff.mp hinner).2
    | small _ _ hc =>
      refine ⟨_, _, rfl, by simp [isAlphanumeric, isAsciiLetter, hc], ?_⟩
      exact (cases_of_isAsciiLower hc).2.1
  obtain ⟨rest, hrest⟩ := hname
  rw [leadsWithDigit, ← hrest, List.find?_append, List.find?_append, List.find?_cons, hletter]
  cases head.find? isAlphanumeric with
  | none => simp [hdigit]
  | some a => rfl

theorem leadsWithDigit_append {a b : String} (hb : leadsWithDigit b = false) :
    leadsWithDigit (a ++ b) = leadsWithDigit a := by
  unfold leadsWithDigit at hb ⊢
  rw [String.toList_append, List.find?_append]
  cases a.toList.find? isAlphanumeric with
  | none => exact hb
  | some c => rfl

/-- The plural of a name leads with a digit if the name does. -/
theorem exists_pluralize (name : String) : ∃ plural,
    Pluralizer.default.pluralize name = .ok plural ∧
      leadsWithDigit plural = leadsWithDigit name := by
  cases hsplit : Pluralizer.splitLastWord name.toList with
  | none => exact ⟨name, by rw [Pluralizer.pluralize, hsplit], rfl⟩
  | some parts =>
    obtain ⟨head, word⟩ := parts
    obtain ⟨hlast, hname⟩ := Pluralizer.lastWord_of_splitLastWord hsplit
    obtain ⟨c, r, rfl⟩ : ∃ c r, word = c :: r := by cases hlast <;> exact ⟨_, _, rfl⟩
    obtain ⟨s, hs, hlower, -⟩ := Pluralizer.exists_lower_of_lastWord hlast
    have hplural : Pluralizer.isSmallWord
        (Pluralizer.default.ofWord (String.ofList s)).toList = true :=
      Pluralizer.isSmallWord_ofWord (by rwa [String.toList_ofList])
    obtain ⟨d, t, hdt, hlast', -⟩ := Pluralizer.lastWord_capitalizedAs hlast hplural
    refine ⟨_, Pluralizer.pluralize_eq hsplit hlower hs, ?_⟩
    rw [leadsWithDigit_of_lastWord hlast hname, hdt]
    exact leadsWithDigit_of_lastWord hlast' (String.toList_ofList ▸ List.prefix_rfl)

theorem exists_collectionName {n : Naming} {plural : Bool}
    (h : plural = false ∨ n.pluralizer = .default) (element : String) : ∃ collection,
    n.collectionName element plural = .ok collection ∧
      leadsWithDigit collection = leadsWithDigit element := by
  unfold collectionName
  cases plural with
  | true =>
    rw [if_pos rfl, h.resolve_left nofun]
    exact exists_pluralize element
  | false =>
    rw [if_neg nofun]
    split
    · exact ⟨_, rfl, leadsWithDigit_append (by decide)⟩
    · exact ⟨_, rfl, leadsWithDigit_append (by decide)⟩

/-- Every derived name is fit for code, but for a digit at its start. -/
theorem sanitized_derived (p : Pluralizer) (limit : Value) (element : String) :
    let n : Naming := ⟨defaultEscapes, p, limit⟩
    (∀ case, Sanitized element (sanitize defaultEscapes case element)) ∧
    Sanitized element (n.itemFieldName element none) ∧
    (∀ className, Sanitized className (n.referenceFieldName className)) ∧
    (∀ plural collection, n.collectionName element plural = .ok collection →
      ∃ name, n.wrapperClassName element plural none = .ok name ∧ Sanitized collection name) ∧
    ∀ plural, plural = false ∨ p = .default →
      ∃ name, n.wrapperClassName element plural none = .ok name ∧ Sanitized element name ∧
        Sanitized element (n.referenceFieldName name) := by
  intro n
  have hwrapper (plural : Bool) (collection : String)
      (h : n.collectionName element plural = .ok collection) :
      ∃ name, n.wrapperClassName element plural none = .ok name ∧ Sanitized collection name :=
    ⟨_, by rw [wrapperClassName, h]; rfl, sanitized .pascal collection⟩
  refine ⟨fun case => sanitized case element, sanitized .snake element, fun className =>
    sanitized .snake className, hwrapper, fun plural hplural => ?_⟩
  obtain ⟨collection, hcollection, hlead⟩ := exists_collectionName (n := n) hplural element
  obtain ⟨name, hname, hsanitized⟩ := hwrapper plural collection hcollection
  have htrans := (sanitized .snake name).of_leadsWithDigit_eq
    (hsanitized.leadsWithDigit_eq.trans hlead)
  exact ⟨name, hname, hsanitized.of_leadsWithDigit_eq hlead, htrans⟩

theorem sanitized_derived_orderItem : ∃ name,
    wrapperClassName ⟨defaultEscapes, .default, .int 9⟩ "order-item" true none = .ok name ∧
      isIdentifier name.toList = true := by
  obtain ⟨name, hname, hsanitized, -⟩ :=
    (sanitized_derived .default (.int 9) "order-item").2.2.2.2 true (.inr rfl)
  exact ⟨name, hname, hsanitized.isIdentifier_iff.mpr (by decide)⟩

/-- A leading digit stays in front, in either case. -/
theorem digit_not_escaped : isIdentifier (sanitize defaultEscapes .snake "1a").toList = false ∧
    isIdentifier (sanitize defaultEscapes .pascal "1a").toList = false := by decide +kernel

end Naming
end Enfold
