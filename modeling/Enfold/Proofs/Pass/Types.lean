import Enfold.Proofs.Pass.Transparent

/-! # Type names after a run

A type name means the first class of the walk that has it, as its qualified name or as its own. A
wrapper that stands before that class takes the name over, and so does a class that is renamed.
-/

namespace Enfold

section Lists

variable {α : Type} [DecidableEq α] {l : List α} {p q keep : α → Bool}

theorem idxOf_lt_idxOf_iff {l₁ l₂ : List α} {c x : α} (hc : c ∉ l₁) (hx : x ≠ c) :
    (l₁ ++ c :: l₂).idxOf c < (l₁ ++ c :: l₂).idxOf x ↔ x ∉ l₁ := by
  have hne : (l₁ ++ c :: l₂).idxOf c ≠ (l₁ ++ c :: l₂).idxOf x := fun e =>
    hx ((List.idxOf_inj (by simp)).mp e).symm
  rw [← idxOf_lt_idxOf_iff_mem hc, Nat.not_lt]
  exact ⟨Nat.le_of_lt, fun h => Nat.lt_of_le_of_ne h hne⟩

theorem find?_eq_find?_filter_iff : l.find? p = (l.filter keep).find? q ↔
    (∀ c, (l.filter keep).find? q = some c → p c) ∧
      ∀ x ∈ l, p x → ¬ (keep x ∧ q x) →
        ∃ c, (l.filter keep).find? q = some c ∧ l.idxOf c < l.idxOf x := by
  constructor
  · intro h
    refine ⟨fun c hc => List.find?_some (h.trans hc), fun x hx hp hnot => ?_⟩
    obtain ⟨c, hc⟩ := Option.isSome_iff_exists.mp (List.find?_isSome.mpr ⟨x, hx, hp⟩)
    refine ⟨c, h ▸ hc, ?_⟩
    have hxc : x ≠ c := by
      rintro rfl
      have hmem := List.mem_filter.mp (List.mem_of_find?_eq_some (h ▸ hc))
      exact hnot ⟨hmem.2, List.find?_some (h ▸ hc)⟩
    obtain ⟨hpc, l₁, l₂, rfl, hbefore⟩ := List.find?_eq_some_iff_append.mp hc
    have hx₁ : x ∉ l₁ := fun hm => by simpa [hp] using hbefore x hm
    have hc₁ : c ∉ l₁ := fun hm => by simpa [hpc] using hbefore c hm
    exact (idxOf_lt_idxOf_iff hc₁ hxc).mpr hx₁
  · rintro ⟨hkeep, hnew⟩
    cases hq : (l.filter keep).find? q with
    | none =>
      refine List.find?_eq_none.mpr fun x hx hp => ?_
      by_cases hold : keep x ∧ q x
      · exact List.find?_eq_none.mp hq x (List.mem_filter.mpr ⟨hx, hold.1⟩) hold.2
      · obtain ⟨c, hc, -⟩ := hnew x hx hp hold
        rw [hq] at hc
        cases hc
    | some c =>
      have hc := List.mem_filter.mp (List.mem_of_find?_eq_some hq)
      obtain ⟨l₁, l₂, hl, hc₁⟩ := List.eq_append_cons_of_mem hc.1
      refine List.find?_eq_some_iff_append.mpr ⟨hkeep c hq, l₁, l₂, hl, fun a ha => ?_⟩
      have hac : a ≠ c := fun e => hc₁ (e ▸ ha)
      by_contra hp
      simp only [Bool.not_eq_true', Bool.not_eq_false] at hp
      by_cases hold : keep a ∧ q a
      · obtain ⟨d, hd⟩ := Option.isSome_iff_exists.mp
          (List.find?_isSome.mpr ⟨a, List.mem_filter.mpr ⟨ha, hold.1⟩, hold.2⟩)
        rw [hl, List.filter_append, List.find?_append, hd, Option.some_or, Option.some.injEq] at hq
        exact hc₁ (hq ▸ (List.mem_filter.mp (List.mem_of_find?_eq_some hd)).1)
      · obtain ⟨d, hd, hlt⟩ := hnew a (by simp [hl, ha]) hp hold
        obtain rfl := Option.some.inj (hq.symm.trans hd)
        exact (idxOf_lt_idxOf_iff hc₁ hac).mp (hl ▸ hlt) ha

end Lists

def Model.answersTo (m : Model) (c : ClassId) (name : String) : Bool :=
  name = m.qualifiedName c || name = (m.decl c).name

theorem Model.classOfType?_some (m : Model) (name : String) :
    m.classOfType? (some name) = m.walk.find? (m.answersTo · name) := rfl

namespace Pass

variable {p : Pass} {s t : PassState} {result : PassResult}

/-- A type name means what it meant unless a wrapper or a renamed class of that name comes first. -/
theorem classOfType?_eq_iff_of_run {v : Value} (hm : Model.ofValue v = .ok s.model)
    (h : p.run.run s = .ok result t) (name : String) :
    t.model.classOfType? (some name) = s.model.classOfType? (some name) ↔
      (∀ c, s.model.classOfType? (some name) = some c → t.model.answersTo c name) ∧
      ∀ x ∈ t.model.walk, t.model.answersTo x name →
        (x ∈ s.model.walk → ¬ s.model.answersTo x name) →
          ∃ c, s.model.classOfType? (some name) = some c ∧
            t.model.walk.idxOf c < t.model.walk.idxOf x := by
  have hd := Model.described_ofValue hm
  have hwalk := filter_walk_of_run hd h
  have hold (x) : decide (x.index < s.model.classes.size) = true ↔ x ∈ s.model.walk := by
    rw [Model.mem_walk hd.toLinked, decide_eq_true_eq]
  rw [Model.classOfType?_some, Model.classOfType?_some, ← hwalk, find?_eq_find?_filter_iff]
  simp only [hold, not_and, hwalk]

/-- Orders with items and a summary, whose class is called like a wrapper of items. -/
def summaries : Value :=
  .object [("package", .text "shop"), ("classes", .list [
    .object [("name", .text "Order"), ("properties", .list [
      .object [("name", .text "item"), ("repeated", .bool true)],
      .object [("name", .text "summary"), ("type", .text "Items")]])],
    .object [("name", .text "Items"), ("properties", .list [
      .object [("name", .text "total")]])]])]

theorem classOfType?_eq_iff_of_summaries_run : ∃ m result t, Model.ofValue summaries = .ok m ∧
    (⟨{}, none, {}⟩ : Pass).run.run { model := m } = .ok result t ∧
      result.wrappers.map t.model.qualifiedName = ["shop.Items1"] ∧
      (t.model.classOfType? (some "Items") = m.classOfType? (some "Items") ↔
        (∀ c, m.classOfType? (some "Items") = some c → t.model.answersTo c "Items") ∧
        ∀ x ∈ t.model.walk, t.model.answersTo x "Items" →
          (x ∈ m.walk → ¬ m.answersTo x "Items") →
            ∃ c, m.classOfType? (some "Items") = some c ∧
              t.model.walk.idxOf c < t.model.walk.idxOf x) := by
  obtain ⟨m, result, t, hm, hr, hnamed⟩ := exists_run_of_ran? ⟨{}, none, {}⟩ summaries
    (fun _ result t => result.wrappers.map t.model.qualifiedName = ["shop.Items1"])
    (by decide +kernel)
  exact ⟨m, result, t, hm, hr, hnamed, classOfType?_eq_iff_of_run hm hr "Items"⟩

/-- A nested wrapper takes over the name of a later class. -/
theorem nested_wrapper_captures : ¬ ∀ (v : Value) (p : Pass) (s t : PassState)
    (result : PassResult), Model.ofValue v = .ok s.model → p.run.run s = .ok result t →
      ∀ q ∈ s.model.walkProperties, ∀ name ∈ (s.model.prop q).typeNames,
        t.model.classOfType? name = s.model.classOfType? name := by
  intro claim
  obtain ⟨m, result, t, hm, hr, q, hq, name, hname, hne⟩ := exists_run_of_ran?
    ⟨{ nested := .bool true }, none, {}⟩ summaries (fun m _ t => ∃ q ∈ m.walkProperties,
      ∃ name ∈ (m.prop q).typeNames, t.model.classOfType? name ≠ m.classOfType? name)
    (by decide +kernel)
  exact hne (claim summaries _ { model := m } t result hm hr q hq name hname)

end Pass
end Enfold
