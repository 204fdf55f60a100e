import Enfold.Files
import Enfold.Proofs.Assoc
import Enfold.Proofs.Except

/-! # Files that were written

What stands in the way of a file is there before it is written. So where a file could be written
once, it can be written again.
-/

namespace Enfold.FileTree

variable {t t' : FileTree} {place q : List String} {p : Path} {x : String}

/-- Only what was put at a place can make it a file. -/
theorem node?_eq_file : node? t place = some (.file x) ↔ Assoc.get? place t = some (.file x) := by
  unfold node?
  cases Assoc.get? place t with
  | some n => rfl
  | none => dsimp only; split <;> simp

theorem isSome_node?_put (n : FileNode) (hq : q <+: place) :
    (node? (Assoc.put place n t) q).isSome = true := by
  unfold node?
  split
  · rfl
  · have hmem := Assoc.mem_of_get? (Assoc.get?_put_self place n t)
    have hany : (Assoc.put place n t).any (fun e => q.isPrefixOf e.1) = true :=
      List.any_eq_true.mpr ⟨_, hmem, List.isPrefixOf_iff_prefix.mpr hq⟩
    rw [hany, Bool.or_true, if_pos rfl]
    rfl

/-- No file stands at a place or above it. -/
def Clear (t : FileTree) (place : List String) : Prop :=
  ∀ q, q <+: place → ∀ x, node? t q ≠ some (.file x)

theorem clear_of_makeDirectory : t.makeDirectory place = .ok t' → t.Clear place := by
  unfold makeDirectory
  dsimp only
  split
  · intro h
    cases h
  · next habove =>
    split
    · intro h
      cases h
    · next hself =>
      intro _ q hq x hx
      rcases Nat.lt_or_ge q.length place.length with hlt | hge
      · refine habove (List.any_eq_true.mpr ⟨q, ?_, by rw [hx]⟩)
        rw [List.prefix_iff_eq_take.mp hq]
        exact List.mem_map_of_mem (List.mem_range.mpr hlt)
      · rw [hq.eq_of_length_le hge] at hx
        exact hself (by rw [hx])

theorem makeDirectory_of_clear (h : t.Clear place) : t.makeDirectory place =
    .ok (if place.isEmpty || (node? t place).isSome then t
      else Assoc.put place .directory t) := by
  unfold makeDirectory
  dsimp only
  rw [if_neg, if_neg]
  · split <;> rfl
  · intro hfile
    split at hfile
    · next x hx => exact h place (List.prefix_refl place) x hx
    · cases hfile
  · intro habove
    obtain ⟨q, hq, hfile⟩ := List.any_eq_true.mp habove
    obtain ⟨i, -, rfl⟩ := List.mem_map.mp hq
    split at hfile
    · next x hx => exact h _ (List.take_prefix i place) x hx
    · cases hfile

theorem makeDirectory_eq_ok : t.makeDirectory place = .ok t' ↔ t.Clear place ∧
    t' = if place.isEmpty || (node? t place).isSome then t
      else Assoc.put place .directory t := by
  constructor
  · intro h
    have hclear := clear_of_makeDirectory h
    rw [makeDirectory_of_clear hclear] at h
    exact ⟨hclear, (Except.ok.inj h).symm⟩
  · rintro ⟨hclear, rfl⟩
    exact makeDirectory_of_clear hclear

theorem write_eq_ok : t.write p x = .ok t' ↔ ∃ t₁, t.makeDirectory p.segments.dropLast = .ok t₁ ∧
    node? t₁ p.segments ≠ some .directory ∧ t' = Assoc.put p.segments (.file x) t₁ := by
  unfold write
  rw [exceptBind_eq_ok]
  refine exists_congr fun t₁ => and_congr_right fun _ => ?_
  split <;> simp_all [eq_comm]

theorem node?_nil_of_clear (h : t.Clear []) : node? t [] = some .directory := by
  unfold node?
  cases hn : Assoc.get? [] t with
  | none => rfl
  | some n =>
    cases n with
    | file x => exact absurd (node?_eq_file.mpr hn) (h [] (List.prefix_refl []) x)
    | directory => rfl

/-- Nothing but a file at a place or above it blocks the way. -/
theorem Clear.put (h : t.Clear place) {other : List String} {n : FileNode}
    (hn : other <+: place → ∀ x, n ≠ .file x) : Clear (Assoc.put other n t) place := by
  intro q hq x hx
  rw [node?_eq_file] at hx
  by_cases he : other = q
  · subst he
    rw [Assoc.get?_put_self] at hx
    exact hn hq x (Option.some.inj hx)
  · rw [Assoc.get?_put_of_ne he] at hx
    exact h q hq x (node?_eq_file.mpr hx)

theorem write_again (h : t.write p x = .ok t') (y : String) : ∃ t'', t'.write p y = .ok t'' := by
  obtain ⟨t₁, hd, hnot, rfl⟩ := write_eq_ok.mp h
  have hclear : t₁.Clear p.segments.dropLast := by
    obtain ⟨hclear, rfl⟩ := makeDirectory_eq_ok.mp hd
    split
    · exact hclear
    · exact hclear.put (by simp)
  have hne : p.segments ≠ [] := by
    intro he
    rw [he] at hnot hclear
    exact hnot (node?_nil_of_clear hclear)
  have hbelow : ¬ p.segments <+: p.segments.dropLast := by
    intro hp
    have hpos := List.length_pos_of_ne_nil hne
    have hle := hp.length_le
    rw [List.length_dropLast] at hle
    omega
  have hagain : Clear (Assoc.put p.segments (.file x) t₁) p.segments.dropLast :=
    hclear.put fun hp => absurd hp hbelow
  have hdir := isSome_node?_put (t := t₁) (.file x) (List.dropLast_prefix p.segments)
  have hfile := node?_eq_file.mpr (Assoc.get?_put_self p.segments (.file x) t₁)
  have hmade : makeDirectory (Assoc.put p.segments (.file x) t₁) p.segments.dropLast =
      .ok (Assoc.put p.segments (.file x) t₁) := by
    rw [makeDirectory_eq_ok, hdir, Bool.or_true, if_pos rfl]
    exact ⟨hagain, rfl⟩
  exact ⟨_, write_eq_ok.mpr ⟨_, hmade, by simp [hfile], rfl⟩⟩

end Enfold.FileTree
