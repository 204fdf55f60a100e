import Enfold.Proofs.Naming.Suffix
import Enfold.Proofs.Pass.Outcome

/-! # Names that are claimed in a pass

A pass notes each name that it had to change. A name that is free is left alone and not noted; one
that is taken gets the least number that makes it free, and is noted once; and the pass stops, with
nothing noted, at a name that is taken with all its numbers.
-/

namespace Enfold.PassM

variable {limit : Value} {n : Int} {name : String} {taken : List String} {scope : Option String}
  {s t : PassState}

theorem run_claimName_of_ok {free : String} {r : Option Naming.Rename}
    (h : Naming.disambiguate limit name taken scope = .ok (free, r)) :
    (claimName limit name taken scope).run s = .ok free { s with
      counters := { s.counters with renames := s.counters.renames ++ r.toList } } := by
  simp only [claimName, h]
  rfl

/-- Claiming a name fails where none is found, and changes nothing then. -/
theorem run_claimName_eq_error_iff {e : Failure} :
    (claimName limit name taken scope).run s = .error e t ↔
      ∃ x, Naming.disambiguate limit name taken scope = .error x ∧ e = .name x ∧ t = s := by
  unfold claimName
  rw [bind_eq_error]
  constructor
  · rintro (h | ⟨_, _, -, h⟩)
    · exact require_eq_error.mp h
    · cases h
  · intro h
    exact Or.inl (require_eq_error.mpr h)

/-- A free name is assigned as it is, and a taken one with the least number that makes it free,
which is noted. -/
theorem claimName_least (hl : limit.asInt? = some n) (name : String) (taken : List String)
    (scope : Option String) (s : PassState) :
    (name ∉ taken → (claimName limit name taken scope).run s = .ok name s) ∧
    (name ∈ taken → ∀ k, IsLeast (Naming.freeNumbers taken name n) k →
      (claimName limit name taken scope).run s = .ok (name ++ toString k) { s with
        counters := { s.counters with
          renames := s.counters.renames ++ [⟨scope, name, name ++ toString k⟩] } }) ∧
    ∀ e t, (claimName limit name taken scope).run s = .error e t ↔
      (name ∈ taken ∧ ∀ k : Nat, 1 ≤ k → (k : Int) ≤ n → name ++ toString k ∈ taken) ∧
        e = .name (.exhausted name (scope.getD "None") limit.plain) ∧ t = s := by
  constructor
  · intro hfree
    rw [run_claimName_of_ok (Naming.disambiguate_of_notMem hfree)]
    simp
  constructor
  · intro htaken k hk
    exact run_claimName_of_ok (Naming.disambiguate_of_isLeast hl htaken hk)
  · intro e t
    rw [run_claimName_eq_error_iff]
    constructor
    · rintro ⟨x, hx, rfl, rfl⟩
      obtain ⟨hall, rfl⟩ := (Naming.disambiguate_eq_error_iff hl).mp hx
      exact ⟨hall, rfl, rfl⟩
    · rintro ⟨hall, rfl, rfl⟩
      exact ⟨_, (Naming.disambiguate_eq_error_iff hl).mpr ⟨hall, rfl⟩, rfl, rfl⟩

theorem claimName_of_gap :
    IsLeast (Naming.freeNumbers ["Items", "Items1", "Items3"] "Items" 9999) 2 ∧
    (claimName (.int 9999) "Items" ["Items", "Items1", "Items3"] (some "pkg")).run { model := {} } =
      .ok "Items2" { model := {}, counters := { renames := [⟨some "pkg", "Items", "Items2"⟩] } } ∧
    (claimName (.bool true) "Items" ["Items", "Items1", "Items3"] (some "pkg")).run { model := {} } =
      .error (.name (.exhausted "Items" "pkg" "True")) { model := {} } := by
  have htaken : "Items" ∈ ["Items", "Items1", "Items3"] := by decide
  have hleast : IsLeast (Naming.freeNumbers ["Items", "Items1", "Items3"] "Items" 9999) 2 := by
    constructor
    · exact ⟨by decide, by decide, by decide⟩
    intro j hj
    by_contra hlt
    obtain rfl : j = 1 := by have := hj.1; omega
    exact hj.2.2 (by decide)
  obtain ⟨-, hnumbered, -⟩ := claimName_least (show (Value.int 9999).asInt? = some 9999 from rfl)
    "Items" ["Items", "Items1", "Items3"] (some "pkg") { model := {} }
  obtain ⟨-, -, hrefused⟩ := claimName_least (show (Value.bool true).asInt? = some 1 from rfl)
    "Items" ["Items", "Items1", "Items3"] (some "pkg") { model := {} }
  have hall : ∀ k : Nat, 1 ≤ k → (k : Int) ≤ 1 →
      "Items" ++ toString k ∈ ["Items", "Items1", "Items3"] := by
    intro k hk hle
    obtain rfl : k = 1 := by omega
    decide
  exact ⟨hleast, hnumbered htaken 2 hleast, (hrefused _ _).mpr ⟨⟨htaken, hall⟩, rfl, rfl⟩⟩

end Enfold.PassM
