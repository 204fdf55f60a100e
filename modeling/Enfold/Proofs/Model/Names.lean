import Enfold.Proofs.Model.Links
import Enfold.Proofs.Naming.Sanitize

/-! # Names of classes

The qualified name of a class starts with that of the class it is nested in, or with its package.
It depends on nothing but names, parents and packages.
-/

namespace Enfold.Model

variable {m m' : Model} {c d : ClassId}

theorem localName_of_parent (hm : m.Linked) (h : (m.decl d).parent = some c) :
    m.localName d = m.localName c ++ "." ++ (m.decl d).name := by
  rw [localName, h]
  dsimp only
  rw [if_pos (hm.parent_lt h)]

theorem localName_of_root (h : (m.decl c).parent = none) : m.localName c = (m.decl c).name := by
  rw [localName, h]

theorem inPackage_append (package : Option String) (a b : String) :
    inPackage package (a ++ b) = inPackage package a ++ b := by
  unfold inPackage
  split
  · rfl
  · split
    · rfl
    · simp only [String.append_assoc]

theorem qualifiedName_of_parent (hm : m.Linked) (h : (m.decl d).parent = some c) :
    m.qualifiedName d = m.qualifiedName c ++ "." ++ (m.decl d).name := by
  rw [qualifiedName, qualifiedName, localName_of_parent hm h, hm.package_eq h, inPackage_append,
    inPackage_append]

theorem qualifiedName_of_root (h : (m.decl c).parent = none) :
    m.qualifiedName c = inPackage (m.decl c).package (m.decl c).name := by
  rw [qualifiedName, localName_of_root h]

/-- The name of a class is settled by that and all around it. -/
theorem localName_congr_of {P : ClassId → Prop}
    (hp : ∀ {c}, P c → (m'.decl c).parent = (m.decl c).parent)
    (hn : ∀ {c}, P c → (m'.decl c).name = (m.decl c).name)
    (up : ∀ {c d}, P d → (m.decl d).parent = some c → P c) (hc : P c) :
    m'.localName c = m.localName c := by
  generalize hi : c.index = i
  induction i using Nat.strongRecOn generalizing c with
  | ind i ih =>
    rw [localName, localName, hp hc, hn hc]
    cases h : (m.decl c).parent with
    | none => rfl
    | some b =>
      dsimp only
      split
      · next hlt => rw [ih b.index (hi ▸ hlt) (up hc h) rfl]
      · rfl

theorem qualifiedName_congr_of {P : ClassId → Prop}
    (hd : ∀ {c}, P c → (m'.decl c).parent = (m.decl c).parent ∧
      (m'.decl c).package = (m.decl c).package ∧ (m'.decl c).name = (m.decl c).name)
    (up : ∀ {c d}, P d → (m.decl d).parent = some c → P c) (hc : P c) :
    m'.qualifiedName c = m.qualifiedName c := by
  rw [qualifiedName, qualifiedName, (hd hc).2.1,
    localName_congr_of (fun h => (hd h).1) (fun h => (hd h).2.2) up hc]

theorem qualifiedName_congr (hd : ∀ c, (m'.decl c).parent = (m.decl c).parent ∧
    (m'.decl c).package = (m.decl c).package ∧ (m'.decl c).name = (m.decl c).name) (c : ClassId) :
    m'.qualifiedName c = m.qualifiedName c :=
  qualifiedName_congr_of (P := fun _ => True) (fun _ => hd _) (fun _ _ => trivial) trivial

/-! ### Names in their scopes -/

/-- No name holds a point, and classes that others are nested in have names. -/
structure WellNamed (m : Model) : Prop where
  pointless : ∀ c, Pointless (m.decl c).name
  parent_ne : ∀ {c d}, (m.decl d).parent = some c → (m.decl c).name ≠ ""

/-- What stands before the name of a class in its qualified name. -/
def stem (m : Model) (c : ClassId) : String :=
  match (m.scope c).filter (· ≠ "") with
  | some s => s ++ "."
  | none => ""

theorem localName_ne_empty (h : (m.decl c).name ≠ "") : m.localName c ≠ "" := by
  rw [localName]
  split
  · split
    · intro e
      exact h (String.append_eq_empty_iff.mp e).2
    · exact h
  · exact h

theorem qualifiedName_ne_empty (h : (m.decl c).name ≠ "") : m.qualifiedName c ≠ "" := by
  have hl := localName_ne_empty h
  unfold qualifiedName inPackage
  split
  · exact hl
  · split
    · exact hl
    · intro e
      exact hl (String.append_eq_empty_iff.mp e).2

/-- A qualified name is a name in its scope. -/
theorem qualifiedName_eq_stem_of (hm : m.Linked)
    (hne : ∀ b, (m.decl c).parent = some b → m.qualifiedName b ≠ "") :
    m.qualifiedName c = m.stem c ++ (m.decl c).name := by
  unfold stem scope
  cases hp : (m.decl c).parent with
  | some b =>
    rw [qualifiedName_of_parent hm hp]
    simp [Option.filter_some, hne b hp]
  | none =>
    rw [qualifiedName_of_root hp]
    unfold inPackage
    cases (m.decl c).package with
    | none => simp
    | some p => by_cases hp : p = "" <;> simp [Option.filter_some, hp]

theorem qualifiedName_eq_stem (hm : m.Linked) (hw : m.WellNamed) (c : ClassId) :
    m.qualifiedName c = m.stem c ++ (m.decl c).name :=
  qualifiedName_eq_stem_of hm fun _ hp => qualifiedName_ne_empty (hw.parent_ne hp)

theorem name_eq_of_stem (hm : m.Linked) {name : String} (hs : m.scope d = m.scope c)
    (hq : m.qualifiedName d = m.stem c ++ name) (hn : Pointless name) :
    (m.decl d).name = name := by
  have hstem : m.stem c = m.stem d := by
    unfold stem
    rw [hs]
  rw [hstem] at hq
  by_cases hne : ∀ b, (m.decl d).parent = some b → m.qualifiedName b ≠ ""
  · rw [qualifiedName_eq_stem_of hm hne] at hq
    exact (String.append_right_inj _).mp hq
  · -- Inside a class without a name the name would start with a point.
    push Not at hne
    obtain ⟨b, hp, hb⟩ := hne
    have hempty : m.stem d = "" := by simp [stem, scope, hp, hb, Option.filter_some]
    have hname : name = "." ++ (m.decl d).name := by
      simpa [qualifiedName_of_parent hm hp, hempty, hb] using hq.symm
    rw [hname, Pointless, String.toList_append] at hn
    exact absurd (List.mem_append_left _ (by decide)) hn

end Enfold.Model
