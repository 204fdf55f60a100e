import Mathlib.Data.List.Forall2
import Enfold.Assoc

/-! # Results that may be errors

What a successful sequence, traversal or change of error says about its parts, and what two runs
side by side have in common.
-/

namespace Enfold

theorem exceptBind_eq_ok {ε α β : Type} {x : Except ε α} {f : α → Except ε β} {b : β} :
    (x >>= f) = .ok b ↔ ∃ a, x = .ok a ∧ f a = .ok b := by
  cases x <;> simp [bind, Except.bind]

theorem exceptPure_eq_ok {ε α : Type} {a b : α} : (pure a : Except ε α) = .ok b ↔ b = a :=
  ⟨fun h => (Except.ok.inj h).symm, fun h => h ▸ rfl⟩

/-- A list is mapped if each of its elements is. -/
theorem mapM_eq_ok {ε α β : Type} {f : α → Except ε β} {l : List α} {r : List β} :
    l.mapM f = .ok r ↔ List.Forall₂ (fun a b => f a = .ok b) l r := by
  induction l generalizing r with
  | nil =>
    rw [List.forall₂_nil_left_iff]
    exact exceptPure_eq_ok
  | cons a l ih =>
    rw [List.mapM_cons, List.forall₂_cons_left_iff]
    constructor
    · intro h
      obtain ⟨b, hb, h⟩ := exceptBind_eq_ok.mp h
      obtain ⟨r', hr, h⟩ := exceptBind_eq_ok.mp h
      exact ⟨b, r', hb, ih.mp hr, exceptPure_eq_ok.mp h⟩
    · rintro ⟨b, r', hb, hr, rfl⟩
      exact exceptBind_eq_ok.mpr ⟨b, hb, exceptBind_eq_ok.mpr ⟨r', ih.mpr hr, rfl⟩⟩

theorem exists_mapM_eq_ok {ε α β : Type} {f : α → Except ε β} {l : List α} :
    (∃ r, l.mapM f = .ok r) ↔ ∀ a ∈ l, ∃ b, f a = .ok b := by
  induction l with
  | nil => exact ⟨fun _ _ h => absurd h List.not_mem_nil, fun _ => ⟨[], rfl⟩⟩
  | cons a l ih =>
    rw [List.forall_mem_cons, ← ih]
    simp only [mapM_eq_ok, List.forall₂_cons_left_iff]
    constructor
    · rintro ⟨_, b, r, hb, hr, rfl⟩
      exact ⟨⟨b, hb⟩, r, hr⟩
    · rintro ⟨⟨b, hb⟩, r, hr⟩
      exact ⟨b :: r, b, r, hb, hr, rfl⟩

theorem mapM_eq_some {α β : Type} {f : α → Option β} {l : List α} {r : List β} :
    l.mapM f = some r ↔ List.Forall₂ (fun a b => f a = some b) l r := by
  induction l generalizing r with
  | nil => simp [eq_comm]
  | cons a l ih =>
    simp only [List.mapM_cons, List.forall₂_cons_left_iff, Option.bind_eq_bind,
      Option.bind_eq_some_iff, Option.pure_def, Option.some.injEq, ih]
    constructor
    · rintro ⟨b, hb, r', hr, rfl⟩
      exact ⟨b, r', hb, hr, rfl⟩
    · rintro ⟨b, r', hb, hr, rfl⟩
      exact ⟨b, hb, r', hr, rfl⟩

theorem exists_mapM_eq_some {α β : Type} {f : α → Option β} {l : List α}
    (h : ∀ a ∈ l, ∃ b, f a = some b) : ∃ r, l.mapM f = some r := by
  induction l with
  | nil => exact ⟨[], rfl⟩
  | cons a l ih =>
    rw [List.forall_mem_cons] at h
    obtain ⟨⟨b, hb⟩, hl⟩ := h
    obtain ⟨r, hr⟩ := ih hl
    exact ⟨b :: r, mapM_eq_some.mpr (.cons hb (mapM_eq_some.mp hr))⟩

theorem exists_left_of_forall₂ {α β : Type} {R : α → β → Prop} {l : List α} {l' : List β} {b : β}
    (h : List.Forall₂ R l l') (hb : b ∈ l') : ∃ a ∈ l, R a b := by
  induction h with
  | nil => cases hb
  | @cons a _ _ _ hab _ ih =>
    rcases List.mem_cons.mp hb with rfl | hb
    · exact ⟨a, List.mem_cons_self, hab⟩
    · obtain ⟨a', ha, h'⟩ := ih hb
      exact ⟨a', List.mem_cons_of_mem _ ha, h'⟩

theorem forall₂_comp {α β γ : Type} {R : α → β → Prop} {S : β → γ → Prop} {l₁ : List α}
    {l₂ : List β} {l₃ : List γ} (h : List.Forall₂ R l₁ l₂) (h' : List.Forall₂ S l₂ l₃) :
    List.Forall₂ (fun a c => ∃ b, R a b ∧ S b c) l₁ l₃ := by
  induction h generalizing l₃ with
  | nil => cases h'; exact .nil
  | cons hab _ ih =>
    cases h' with
    | cons hbc h' => exact .cons ⟨_, hab, hbc⟩ (ih h')

theorem mapM_eq_ok_mem {ε α β : Type} {f : α → Except ε β} {l : List α} {r : List β}
    (h : l.mapM f = .ok r) {b : β} (hb : b ∈ r) : ∃ a ∈ l, f a = .ok b := by
  obtain ⟨a, ha, hab⟩ := exists_left_of_forall₂ (mapM_eq_ok.mp h) hb
  exact ⟨a, ha, hab⟩

theorem mapError_eq_ok {ε ε' α : Type} {x : Except ε α} {f : ε → ε'} {a : α} :
    x.mapError f = .ok a ↔ x = .ok a := by
  cases x <;> simp [Except.mapError]

theorem toOption_eq_some {ε α : Type} {x : Except ε α} {a : α} :
    x.toOption = some a ↔ x = .ok a := by
  cases x <;> simp [Except.toOption]

theorem exceptMap_eq_ok {ε α β : Type} {x : Except ε α} {f : α → β} {b : β} :
    x.map f = .ok b ↔ ∃ a, x = .ok a ∧ f a = b := by
  cases x <;> simp [Except.map]

theorem exceptMap_bind {ε α β γ : Type} (x : Except ε α) (f : α → Except ε β) (g : β → γ) :
    (x >>= f).map g = x >>= fun a => (f a).map g := by
  cases x <;> rfl

theorem exceptMap_unit_eq_ok {ε α : Type} {x : Except ε α} :
    x.map (fun _ => ()) = .ok () ↔ ∃ a, x = .ok a := by
  cases x <;> simp [Except.map]

theorem forIn_eq_ok {ε α : Type} {P : α → Prop} {g : α → Except ε (ForInStep Unit)}
    (hg : ∀ a x, g a = .ok x ↔ P a ∧ x = .yield ()) {l : List α} {u : Unit} :
    (forIn l () fun a _ => g a) = Except.ok u ↔ ∀ a ∈ l, P a := by
  induction l with
  | nil => exact ⟨fun _ _ h => (List.not_mem_nil h).elim, fun _ => rfl⟩
  | cons a l ih =>
    rw [List.forIn_cons, exceptBind_eq_ok, List.forall_mem_cons]
    constructor
    · rintro ⟨x, hx, h⟩
      obtain ⟨ha, rfl⟩ := (hg a x).mp hx
      exact ⟨ha, ih.mp h⟩
    · rintro ⟨ha, h⟩
      exact ⟨_, (hg a _).mpr ⟨ha, rfl⟩, ih.mpr h⟩

theorem discard_eq_ok {ε α : Type} {x : Except ε α} {u : Unit} :
    discard x = .ok u ↔ ∃ a, x = .ok a := by
  cases x <;> simp [discard, Functor.discard, Functor.mapConst, Except.map]

theorem foldlM_invariant {ε α σ : Type} {f : σ → α → Except ε σ} {P : σ → Prop} {l : List α}
    {s t : σ} (hf : ∀ a ∈ l, ∀ s t, P s → f s a = .ok t → P t) (hs : P s)
    (h : l.foldlM f s = .ok t) : P t := by
  induction l generalizing s with
  | nil => exact exceptPure_eq_ok.mp h ▸ hs
  | cons a l ih =>
    rw [List.foldlM_cons] at h
    obtain ⟨u, hu, h⟩ := exceptBind_eq_ok.mp h
    exact ih (fun b hb => hf b (List.mem_cons_of_mem _ hb)) (hf a List.mem_cons_self s u hs hu) h

theorem foldlM_eq_ok_of_forall₂ {ε α β σ : Type} {f : σ → α → Except ε σ} {g : σ → β → Except ε σ}
    {l : List α} {l' : List β}
    (h : List.Forall₂ (fun a b => ∀ s, ∃ t, f s a = .ok t ∧ g s b = .ok t) l l') (s : σ) :
    ∃ t, l.foldlM f s = .ok t ∧ l'.foldlM g s = .ok t := by
  induction h generalizing s with
  | nil => exact ⟨s, rfl, rfl⟩
  | cons hab _ ih =>
    obtain ⟨u, hf, hg⟩ := hab s
    obtain ⟨t, ht, ht'⟩ := ih u
    rw [List.foldlM_cons, List.foldlM_cons, hf, hg]
    exact ⟨t, ht, ht'⟩

/-- Steps that change nothing can be left out of a fold. -/
theorem foldlM_filter_of_skip {ε α σ : Type} {f : σ → α → Except ε σ} {l : List α}
    {keep : α → Bool} (h : ∀ a ∈ l, keep a = false → ∀ s, f s a = .ok s) (s : σ) :
    (l.filter keep).foldlM f s = l.foldlM f s := by
  induction l generalizing s with
  | nil => rfl
  | cons a l ih =>
    have ih := ih fun b hb => h b (List.mem_cons_of_mem _ hb)
    rw [List.foldlM_cons]
    cases hk : keep a with
    | false =>
      rw [List.filter_cons_of_neg (by simp [hk]), ih, h a List.mem_cons_self hk]
      rfl
    | true =>
      rw [List.filter_cons_of_pos hk, List.foldlM_cons]
      exact bind_congr ih

/-- Both results are the same error, or both are values, which stand in a relation. -/
inductive Agree {ε α β : Type} (R : α → β → Prop) : Except ε α → Except ε β → Prop where
  | error (e : ε) : Agree R (.error e) (.error e)
  | ok {a : α} {b : β} (h : R a b) : Agree R (.ok a) (.ok b)

namespace Agree

variable {ε α α' β β' : Type} {R : α → β → Prop} {S : α' → β' → Prop}

theorem of_eq {x y : Except ε α} (h : y = x) : Agree (fun a b => b = a) x y := by
  subst h
  cases y with
  | error e => exact .error e
  | ok a => exact .ok rfl

theorem mapError {ε' : Type} {x : Except ε α} {y : Except ε β} (h : Agree R x y) (f : ε → ε') :
    Agree R (x.mapError f) (y.mapError f) := by
  cases h with
  | error e => exact .error _
  | ok h => exact .ok h

theorem mono {R' : α → β → Prop} {x : Except ε α} {y : Except ε β} (h : Agree R x y)
    (hR : ∀ a b, R a b → R' a b) : Agree R' x y := by
  cases h with
  | error e => exact .error e
  | ok h => exact .ok (hR _ _ h)

theorem exists_of_isOk {x : Except ε α} {y : Except ε β} (h : Agree R x y) (hx : x.isOk = true) :
    ∃ a b, x = .ok a ∧ y = .ok b ∧ R a b := by
  cases h with
  | error e => cases hx
  | ok h => exact ⟨_, _, rfl, rfl, h⟩

theorem map {x : Except ε α} {y : Except ε β} {f : α → α'} {g : β → β'} (h : Agree R x y)
    (hf : ∀ a b, R a b → S (f a) (g b)) : Agree S (x.map f) (y.map g) := by
  cases h with
  | error e => exact .error e
  | ok h => exact .ok (hf _ _ h)

theorem bind {x : Except ε α} {y : Except ε β} {f : α → Except ε α'} {g : β → Except ε β'}
    (h : Agree R x y) (hf : ∀ a b, R a b → Agree S (f a) (g b)) : Agree S (x >>= f) (y >>= g) := by
  cases h with
  | error e => exact .error e
  | ok h => exact hf _ _ h

theorem bind_right {R' : α → β' → Prop} {x : Except ε α} {y : Except ε β} {g : β → Except ε β'}
    (h : Agree R x y) (hg : ∀ a b, R a b → ∃ b', g b = .ok b' ∧ R' a b') :
    Agree R' x (y >>= g) := by
  cases h with
  | error e => exact .error e
  | @ok a b h =>
    obtain ⟨b', hb, hr⟩ := hg a b h
    change Agree R' (.ok a) (g b)
    exact hb ▸ .ok hr

/-- Two folds step by step, of which the steps see how much is done. -/
theorem foldlM {P : α → β → Prop} {l : List α} {l' : List β} {f : α' → α → Except ε α'}
    {g : β' → β → Except ε β'} (I : List α → List β → α' → β' → Prop)
    (step : ∀ l₁ a l₂ l₁' b l₂' s s', l = l₁ ++ a :: l₂ → l' = l₁' ++ b :: l₂' → P a b →
      I l₁ l₁' s s' → Agree (I (l₁ ++ [a]) (l₁' ++ [b])) (f s a) (g s' b)) {s : α'} {s' : β'}
    (h : List.Forall₂ P l l') (start : I [] [] s s') :
    Agree (I l l') (l.foldlM f s) (l'.foldlM g s') := by
  suffices H : ∀ l₂ l₂', List.Forall₂ P l₂ l₂' → ∀ l₁ l₁' s s', l = l₁ ++ l₂ → l' = l₁' ++ l₂' →
      I l₁ l₁' s s' → Agree (I l l') (l₂.foldlM f s) (l₂'.foldlM g s') from
    H l l' h [] [] s s' rfl rfl start
  intro l₂ l₂' h₂
  induction h₂ with
  | nil =>
    rintro l₁ l₁' s s' rfl rfl hi
    simp only [List.append_nil] at hi ⊢
    exact .ok hi
  | @cons a b l₂ l₂' hab _ ih =>
    intro l₁ l₁' s s' hl hl' hi
    rw [List.foldlM_cons, List.foldlM_cons]
    refine (step l₁ a l₂ l₁' b l₂' s s' hl hl' hab hi).bind fun t t' ht => ?_
    exact ih (l₁ ++ [a]) (l₁' ++ [b]) t t' (by simp [hl]) (by simp [hl']) ht

end Agree

end Enfold
