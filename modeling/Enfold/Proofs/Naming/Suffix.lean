import Mathlib.Data.List.Nodup
import Mathlib.Data.List.Range
import Mathlib.Order.Bounds.Defs
import Enfold.Naming.Suffix

/-! # Free names

A name that is free in its scope is the name that was asked for, or that name with a number after
it. All that are tried in turn are different, so none is free only where as many are taken.
-/

namespace Enfold.Naming

variable {taken : List String} {name free : String}

theorem leastFree?_eq_find? (taken : List String) (name : String) (tries k : Nat) :
    leastFree? taken name tries k =
      ((List.range' k tries).find? fun i => name ++ toString i ∉ taken).map (name ++ toString ·) := by
  induction tries generalizing k with
  | zero => rfl
  | succ tries ih =>
    rw [leastFree?, List.range'_succ, List.find?_cons]
    by_cases hk : name ++ toString k ∈ taken
    · simp only [hk, ih, if_true, not_true_eq_false, decide_false]
    · simp only [hk, if_false, not_false_eq_true, decide_true, Option.map_some]

theorem leastFree?_eq_some {tries k : Nat} (h : leastFree? taken name tries k = some free) :
    free ∉ taken ∧ ∃ i : Nat, free = name ++ toString i := by
  rw [leastFree?_eq_find?] at h
  obtain ⟨i, hi, rfl⟩ := Option.map_eq_some_iff.mp h
  exact ⟨by simpa using List.find?_some hi, i, rfl⟩

theorem disambiguate_ok {limit : Value} {scope : Option String} {r : Option Rename}
    (h : disambiguate limit name taken scope = .ok (free, r)) :
    free ∉ taken ∧ (free = name ∨ ∃ i : Nat, free = name ++ toString i) := by
  unfold disambiguate at h
  split at h
  · split at h
    · cases h
    · split at h
      · next hf =>
        cases h
        exact ⟨(leastFree?_eq_some hf).1, Or.inr (leastFree?_eq_some hf).2⟩
      · cases h
  · next hn =>
    cases h
    exact ⟨hn, Or.inl rfl⟩

/-- The name if it is free, and otherwise with the least number that makes it free. -/
inductive IsLeastFree (taken : List String) (name : String) : String → Prop where
  | asked : name ∉ taken → IsLeastFree taken name name
  | numbered {k : Nat} : name ∈ taken → 1 ≤ k → (∀ i, 1 ≤ i → i < k → name ++ toString i ∈ taken) →
    name ++ toString k ∉ taken → IsLeastFree taken name (name ++ toString k)

theorem IsLeastFree.notMem (h : IsLeastFree taken name free) : free ∉ taken := by
  cases h <;> assumption

theorem leastFree?_least {tries k : Nat} (h : leastFree? taken name tries k = some free) :
    ∃ i, k ≤ i ∧ free = name ++ toString i ∧ free ∉ taken ∧
      ∀ j, k ≤ j → j < i → name ++ toString j ∈ taken := by
  rw [leastFree?_eq_find?] at h
  obtain ⟨i, hi, rfl⟩ := Option.map_eq_some_iff.mp h
  obtain ⟨hfree, hmem, hleast⟩ := List.find?_range'_eq_some.mp hi
  exact ⟨i, (List.mem_range'_1.mp hmem).1, rfl, by simpa using hfree, by simpa using hleast⟩

/-- No smaller number would have made the name free. -/
theorem isLeastFree_of_disambiguate {limit : Value} {scope : Option String} {r : Option Rename}
    (h : disambiguate limit name taken scope = .ok (free, r)) : IsLeastFree taken name free := by
  unfold disambiguate at h
  split at h
  · next hname =>
    split at h
    · cases h
    · split at h
      · next hf =>
        cases h
        obtain ⟨i, hi, rfl, hnot, hleast⟩ := leastFree?_least hf
        exact .numbered hname hi hleast hnot
      · cases h
  · next hname =>
    cases h
    exact .asked hname

/-! ### Names that run out -/

theorem leastFree?_eq_none {tries k : Nat} (h : leastFree? taken name tries k = none) :
    ∀ i < tries, name ++ toString (k + i) ∈ taken := by
  rw [leastFree?_eq_find?, Option.map_eq_none_iff, List.find?_range'_eq_none] at h
  intro i hi
  simpa using h (k + i) (by omega) (by omega)

/-- Different numbers are written differently. -/
theorem toString_injective : Function.Injective (toString : Nat → String) := by
  intro i j h
  have hdigits : Nat.toDigits 10 i = Nat.toDigits 10 j := String.ofList_injective h
  rw [← Nat.ofDigitChars_ten_toDigits (n := i), hdigits, Nat.ofDigitChars_ten_toDigits]

/-- The name itself, then with each number after it. -/
def attempts (name : String) (tries : Nat) : List String :=
  name :: (List.range tries).map fun i => name ++ toString (1 + i)

theorem nodup_attempts (name : String) (tries : Nat) : (attempts name tries).Nodup := by
  unfold attempts
  refine List.nodup_cons.mpr ⟨?_, List.nodup_range.map fun i j h => ?_⟩
  · intro h
    obtain ⟨i, -, h⟩ := List.mem_map.mp h
    have hlen := congrArg String.length h
    have : (toString (1 + i)).length ≠ 0 := by simp
    rw [String.length_append] at hlen
    omega
  · have := toString_injective ((String.append_right_inj _).mp h)
    omega

theorem disambiguate_exhausted {limit : Value} {scope : Option String} {a b c : String}
    (h : disambiguate limit name taken scope = .error (.exhausted a b c)) :
    ∃ n, limit.asInt? = some n ∧ attempts name n.toNat ⊆ taken := by
  unfold disambiguate at h
  split at h
  · next hname =>
    split at h
    · cases h
    · next n hn =>
      split at h
      · cases h
      · next hnone =>
        refine ⟨n, hn, List.cons_subset.mpr ⟨hname, fun x hx => ?_⟩⟩
        obtain ⟨i, hi, rfl⟩ := List.mem_map.mp hx
        exact leastFree?_eq_none hnone i (List.mem_range.mp hi)
  · cases h

/-! ### The number that is taken -/

def freeNumbers (taken : List String) (name : String) (limit : Int) : Set Nat :=
  {k | 1 ≤ k ∧ (k : Int) ≤ limit ∧ name ++ toString k ∉ taken}

theorem leastFree?_eq_some_of_isLeast {limit : Int} {k : Nat}
    (hk : IsLeast (freeNumbers taken name limit) k) :
    leastFree? taken name limit.toNat 1 = some (name ++ toString k) := by
  obtain ⟨⟨hone, hle, hfree⟩, hleast⟩ := hk
  have hfind : ((List.range' 1 limit.toNat).find? fun i => name ++ toString i ∉ taken) = some k := by
    rw [List.find?_range'_eq_some]
    refine ⟨by simpa using hfree, List.mem_range'_1.mpr ⟨hone, by omega⟩, fun j hj hjk => ?_⟩
    by_contra hnot
    have hj' : j ∈ freeNumbers taken name limit := ⟨hj, by omega, by simpa using hnot⟩
    exact absurd (hleast hj') (Nat.not_le.mpr hjk)
  rw [leastFree?_eq_find?, hfind, Option.map_some]

theorem leastFree?_eq_none_iff {limit : Int} : leastFree? taken name limit.toNat 1 = none ↔
    ∀ k : Nat, 1 ≤ k → (k : Int) ≤ limit → name ++ toString k ∈ taken := by
  rw [leastFree?_eq_find?, Option.map_eq_none_iff, List.find?_range'_eq_none]
  simp only [decide_not, Bool.not_not, decide_eq_true_eq]
  constructor
  · intro h k hone hle
    exact h k hone (by omega)
  · intro h k hone hlt
    exact h k hone (by omega)

section Disambiguate

variable {limit : Value} {scope : Option String} {n : Int}

theorem disambiguate_of_notMem (h : name ∉ taken) :
    disambiguate limit name taken scope = .ok (name, none) :=
  if_neg h

theorem disambiguate_of_isLeast (hl : limit.asInt? = some n) (h : name ∈ taken) {k : Nat}
    (hk : IsLeast (freeNumbers taken name n) k) : disambiguate limit name taken scope =
      .ok (name ++ toString k, some ⟨scope, name, name ++ toString k⟩) := by
  simp [disambiguate, h, hl, leastFree?_eq_some_of_isLeast hk]

/-- A name is refused only if it is taken with all its numbers. -/
theorem disambiguate_eq_error_iff (hl : limit.asInt? = some n) {e : NameError} :
    disambiguate limit name taken scope = .error e ↔
      (name ∈ taken ∧ ∀ k : Nat, 1 ≤ k → (k : Int) ≤ n → name ++ toString k ∈ taken) ∧
        e = .exhausted name (scope.getD "None") limit.plain := by
  rw [← leastFree?_eq_none_iff]
  unfold disambiguate
  by_cases h : name ∈ taken
  · cases hf : leastFree? taken name n.toNat 1 <;> simp [h, hl, hf, eq_comm]
  · simp [h]

end Disambiguate

end Enfold.Naming
