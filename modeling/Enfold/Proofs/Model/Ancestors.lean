import Mathlib.Data.Finset.Card
import Mathlib.Data.Nat.Find
import Mathlib.Logic.Relation
import Enfold.Proofs.Model.Links

/-! # Ancestors

A class descends from those that its base links lead to. They are found within as many steps as
there are classes, since a longer way would come to some class twice.
-/

namespace Enfold.Model

variable {m m' : Model} {b c d : ClassId} {i j n : Nat}

def Extends (m : Model) (c b : ClassId) : Prop := (m.decl c).base = some b

/-- Base links lead from the first class to the second. -/
abbrev DescendsFrom (m : Model) : ClassId → ClassId → Prop := Relation.TransGen m.Extends

/-- The class that a number of base links leads to, if there are as many. -/
def baseAfter (m : Model) : Nat → ClassId → Option ClassId
  | 0, c => some c
  | n + 1, c => (m.decl c).base.bind (m.baseAfter n)

theorem baseAfter_add (i j : Nat) (c : ClassId) :
    m.baseAfter (i + j) c = (m.baseAfter i c).bind (m.baseAfter j) := by
  induction i generalizing c with
  | zero => simp [baseAfter]
  | succ i ih =>
    rw [Nat.succ_add, baseAfter, baseAfter]
    cases (m.decl c).base with
    | none => rfl
    | some b => exact ih b

theorem mem_basesWithin :
    b ∈ m.basesWithin n c ↔ ∃ i < n, m.baseAfter (i + 1) c = some b := by
  induction n generalizing c with
  | zero => simp [basesWithin]
  | succ n ih =>
    cases hc : (m.decl c).base with
    | none => simp [basesWithin, baseAfter, hc]
    | some d =>
      have hstep (i : Nat) : m.baseAfter (i + 1) c = m.baseAfter i d := by
        rw [baseAfter, hc, Option.bind_some]
      simp only [basesWithin, hc, List.mem_cons, ih, hstep]
      constructor
      · rintro (rfl | ⟨i, hi, hb⟩)
        · exact ⟨0, Nat.succ_pos n, rfl⟩
        · exact ⟨i + 1, Nat.succ_lt_succ hi, hb⟩
      · rintro ⟨i, hi, hb⟩
        cases i with
        | zero => exact Or.inl (Option.some.inj hb).symm
        | succ i => exact Or.inr ⟨i, Nat.lt_of_succ_lt_succ hi, hb⟩

theorem descendsFrom_iff : m.DescendsFrom c b ↔ ∃ i, m.baseAfter (i + 1) c = some b := by
  constructor
  · intro h
    induction h with
    | @single b h => exact ⟨0, by rw [baseAfter, show (m.decl c).base = some b from h]; rfl⟩
    | @tail b d _ h ih =>
      obtain ⟨i, hi⟩ := ih
      refine ⟨i + 1, ?_⟩
      rw [baseAfter_add (i + 1) 1, hi, Option.bind_some, baseAfter,
        show (m.decl b).base = some d from h]
      rfl
  · rintro ⟨i, hi⟩
    induction i generalizing c with
    | zero =>
      refine .single ?_
      rw [baseAfter] at hi
      obtain ⟨d, hd, hb⟩ := Option.bind_eq_some_iff.mp hi
      exact Option.some.inj hb ▸ hd
    | succ i ih =>
      rw [baseAfter] at hi
      obtain ⟨d, hd, hb⟩ := Option.bind_eq_some_iff.mp hi
      exact .head hd (ih hb)

theorem lt_of_baseAfter (h : m.baseAfter (i + 1) c = some b) (hj : j ≤ i) :
    ∃ d, m.baseAfter j c = some d ∧ d.index < m.classes.size := by
  obtain ⟨k, hk⟩ := Nat.exists_eq_add_of_le hj
  rw [show i + 1 = j + (k + 1) by omega, baseAfter_add] at h
  obtain ⟨d, hd, h⟩ := Option.bind_eq_some_iff.mp h
  rw [baseAfter] at h
  obtain ⟨e, he, -⟩ := Option.bind_eq_some_iff.mp h
  refine ⟨d, hd, ?_⟩
  by_contra hn
  rw [decl_of_size_le (Nat.le_of_not_lt hn)] at he
  cases he

/-- The shortest way to a class passes no class twice. -/
theorem lt_size_of_least (h : m.baseAfter (i + 1) c = some b)
    (least : ∀ j < i, m.baseAfter (j + 1) c ≠ some b) : i < m.classes.size := by
  by_contra hn
  let place (j : Nat) : Nat := ((m.baseAfter j c).getD default).index
  have hmaps : ∀ j ∈ Finset.range (i + 1), place j ∈ Finset.range m.classes.size := by
    intro j hj
    obtain ⟨d, hd, hlt⟩ := lt_of_baseAfter h (Nat.le_of_lt_succ (Finset.mem_range.mp hj))
    simpa [place, hd] using hlt
  obtain ⟨j, hj, k, hk, hjk, he⟩ := Finset.exists_ne_map_eq_of_card_lt_of_maps_to
    (by simpa using Nat.lt_succ_of_le (Nat.le_of_not_lt hn)) hmaps
  -- The way from the later of the two leads to the class from the earlier one as well.
  have shorter {j k : Nat} (hjk : j < k) (hk : k ≤ i)
      (he : m.baseAfter j c = m.baseAfter k c) : False := by
    refine least (i - (k - j)) (by omega) ?_
    rw [show i - (k - j) + 1 = j + (i + 1 - k) by omega, baseAfter_add, he, ← baseAfter_add,
      show k + (i + 1 - k) = i + 1 by omega, h]
  have hj := Nat.le_of_lt_succ (Finset.mem_range.mp hj)
  have hk := Nat.le_of_lt_succ (Finset.mem_range.mp hk)
  obtain ⟨d, hd, -⟩ := lt_of_baseAfter h hj
  obtain ⟨e, hde, -⟩ := lt_of_baseAfter h hk
  have hsame : m.baseAfter j c = m.baseAfter k c := by
    rw [hd, hde]
    simp only [place, hd, hde, Option.getD_some] at he
    exact congrArg some (ClassId.eq_mk he)
  rcases Nat.lt_or_gt_of_ne hjk with hlt | hlt
  · exact shorter hlt hk hsame
  · exact shorter hlt hj hsame.symm

theorem mem_ancestors : b ∈ m.ancestors c ↔ m.DescendsFrom c b := by
  rw [ancestors, mem_basesWithin, descendsFrom_iff]
  constructor
  · rintro ⟨i, -, hi⟩
    exact ⟨i, hi⟩
  · intro h
    classical
    exact ⟨Nat.find h, lt_size_of_least (Nat.find_spec h) fun j hj => Nat.find_min h hj,
      Nat.find_spec h⟩

theorem mem_ancestors_congr (h : ∀ c, (m'.decl c).base = (m.decl c).base) :
    b ∈ m'.ancestors c ↔ b ∈ m.ancestors c := by
  have : m'.Extends = m.Extends := by
    funext c b
    rw [Extends, Extends, h]
  rw [mem_ancestors, mem_ancestors, DescendsFrom, this]

end Enfold.Model
