import Enfold.Naming.Derive
import Enfold.Proofs.Except

/-! # Names that cannot be derived

Only a table in which a noun has no letters in the plural, a limit that is not whole, and a scope
in which all names are taken leave a wrapper, a reference or a class without a name.
-/

namespace Enfold.Naming

/-- Whether names that are derived can come to an error. -/
def CanFail (n : Naming) : NameError → Prop
  | .emptyPlural => ∃ word, (word, "") ∈ n.pluralizer.irregular
  | .exhausted .. => True
  | .limitNotWhole => n.maxSuffix.asInt? = none

namespace Pluralizer

variable {p : Pluralizer} {word name : String} {e : NameError}

theorem byEnding_ne_nil (s : List Char) : byEnding s ≠ [] := by
  unfold byEnding
  split <;> try split
  all_goals simp

theorem ofWord_eq_empty (hw : word ≠ "") (h : p.ofWord word = "") : (word, "") ∈ p.irregular := by
  unfold ofWord at h
  split at h
  · exact absurd h hw
  · split at h
    · next plural hp => exact Assoc.mem_of_get? (h ▸ hp)
    · have := String.ofList_eq_empty_iff.mp h
      exact absurd (List.reverse_eq_nil_iff.mp this) (byEnding_ne_nil _)

theorem lower_ne_empty {c : Char} {s : List Char} : Text.lower (String.ofList (c :: s)) ≠ "" := by
  have hc : Text.lowerChars c ≠ [] := by
    unfold Text.lowerChars
    split
    · simp
    · split
      · simp
      · split <;> simp
  simp [Text.lower, hc]

/-- No rule for endings makes an empty plural. -/
theorem pluralize_error (h : p.pluralize name = .error e) :
    e = .emptyPlural ∧ ∃ word, (word, "") ∈ p.irregular := by
  unfold pluralize at h
  split at h
  · cases h
  · next head word _ =>
    dsimp only at h
    split at h
    · next hcapital =>
      split at h
      · next hplural =>
        cases h
        cases word with
        | nil => cases hcapital
        | cons c s =>
          have hempty := String.toList_eq_nil_iff.mp hplural
          exact ⟨rfl, _, ofWord_eq_empty lower_ne_empty hempty⟩
      · cases h
    · cases h

end Pluralizer

variable {n : Naming} {e : NameError}

theorem wrapperClassName_error {element : String} {plural : Bool} {explicit : Option String}
    (h : n.wrapperClassName element plural explicit = .error e) :
    e = .emptyPlural ∧ n.CanFail e := by
  unfold wrapperClassName at h
  split at h
  · cases h
  · cases hc : n.collectionName element plural with
    | ok name =>
      rw [hc] at h
      cases h
    | error e' =>
      rw [hc] at h
      cases h
      unfold collectionName at hc
      split at hc
      · obtain ⟨rfl, hword⟩ := Pluralizer.pluralize_error hc
        exact ⟨rfl, hword⟩
      · split at hc <;> cases hc

theorem disambiguate_error {name : String} {taken : List String} {scope : Option String}
    (h : disambiguate n.maxSuffix name taken scope = .error e) : n.CanFail e := by
  unfold disambiguate at h
  split at h
  · split at h
    · next hlimit =>
      cases h
      exact hlimit
    · split at h
      · cases h
      · cases h
        trivial
  · cases h

end Enfold.Naming
