import Enfold.Pass.Run

/-! # Outcomes of a pass program

A program of a pass ends with a result or with a failure, and in either case with a state. The
outcome of a sequence is taken apart step by step, and what every step keeps is kept by a fold.
-/

namespace Enfold.PassM

variable {α β : Type} {s t : PassState}

theorem bind_eq_ok {x : PassM α} {f : α → PassM β} {b : β} :
    (x >>= f).run s = .ok b t ↔ ∃ a u, x.run s = .ok a u ∧ (f a).run u = .ok b t := by
  rw [EStateM.run_bind]
  cases x.run s <;> simp [and_assoc]

theorem bind_eq_error {x : PassM α} {f : α → PassM β} {e : Failure} :
    (x >>= f).run s = .error e t ↔
      x.run s = .error e t ∨ ∃ a u, x.run s = .ok a u ∧ (f a).run u = .error e t := by
  rw [EStateM.run_bind]
  cases x.run s <;> simp [and_assoc]

@[simp] theorem run_report (n : Notice) (s : PassState) :
    (report n).run s = .ok () { s with notices := s.notices ++ [n] } := rfl

@[simp] theorem run_setModel (m : Model) (s : PassState) :
    (setModel m).run s = .ok () { s with model := m } := rfl

@[simp] theorem run_count (f : Counters → Counters) (s : PassState) :
    (count f).run s = .ok () { s with counters := f s.counters } := rfl

@[simp] theorem run_require_ok {ε : Type} (g : ε → Failure) (a : α) (s : PassState) :
    (require g (.ok a : Except ε α)).run s = .ok a s := rfl

@[simp] theorem run_require_error {ε : Type} (g : ε → Failure) (e : ε) (s : PassState) :
    (require g (.error e : Except ε α)).run s = .error (g e) s := rfl

theorem require_eq_ok {ε : Type} {g : ε → Failure} {e : Except ε α} {a : α} :
    (require g e).run s = .ok a t ↔ e = .ok a ∧ t = s := by
  cases e <;> simp [eq_comm]

theorem require_eq_error {ε : Type} {g : ε → Failure} {e : Except ε α} {x : Failure} :
    (require g e).run s = .error x t ↔ ∃ y, e = .error y ∧ x = g y ∧ t = s := by
  cases e <;> simp [eq_comm]

@[simp] theorem run_reports (ns : List Notice) (s : PassState) :
    (forM ns report).run s = .ok () { s with notices := s.notices ++ ns } := by
  induction ns generalizing s with
  | nil => simp
  | cons n ns ih => simp [ih]

@[simp] theorem run_configured_ok (a : α) (s : PassState) :
    (configured (.ok a)).run s = .ok a s := rfl

@[simp] theorem run_configured_error (e : ConfigError) (s : PassState) :
    (configured (.error e : Except ConfigError α)).run s =
      .error (.configuration e) { s with notices := s.notices ++ e.notices } := by
  change (e.notices.forM report >>= fun _ => throw (Failure.configuration e)).run s = _
  rw [EStateM.run_bind, List.forM_eq_forM, run_reports]
  rfl

theorem configured_eq_ok {e : Except ConfigError α} {a : α} :
    (configured e).run s = .ok a t ↔ e = .ok a ∧ t = s := by
  cases e <;> simp [eq_comm]

theorem configured_eq_error {e : Except ConfigError α} {x : Failure} :
    (configured e).run s = .error x t ↔ ∃ y, e = .error y ∧ x = .configuration y ∧
      t = { s with notices := s.notices ++ y.notices } := by
  cases e <;> simp [eq_comm]

/-! ### The next step of a sequence -/

section Steps

variable {ε : Type} {f : α → PassM β} {b : β}

@[simp] theorem run_get_bind (f : PassState → PassM β) (s : PassState) :
    (get >>= f).run s = (f s).run s := rfl

@[simp] theorem run_require_ok_bind {ε : Type} (g : ε → Failure) (a : α) (f : α → PassM β)
    (s : PassState) : (require g (.ok a : Except ε α) >>= f).run s = (f a).run s := rfl

@[simp] theorem run_require_error_bind {ε : Type} (g : ε → Failure) (e : ε) (f : α → PassM β)
    (s : PassState) : (require g (.error e : Except ε α) >>= f).run s = .error (g e) s := rfl

@[simp] theorem run_modify_bind (g : PassState → PassState) (f : PUnit → PassM β) (s : PassState) :
    (modify g >>= f).run s = (f ()).run (g s) := rfl

@[simp] theorem run_report_bind (n : Notice) (f : Unit → PassM β) (s : PassState) :
    (report n >>= f).run s = (f ()).run { s with notices := s.notices ++ [n] } := rfl

@[simp] theorem run_setModel_bind (m : Model) (f : Unit → PassM β) (s : PassState) :
    (setModel m >>= f).run s = (f ()).run { s with model := m } := rfl

@[simp] theorem run_count_bind (g : Counters → Counters) (f : Unit → PassM β) (s : PassState) :
    (count g >>= f).run s = (f ()).run { s with counters := g s.counters } := rfl

@[simp] theorem run_reportIf_bind (worth : Bool) (n : Notice) (f : Unit → PassM β)
    (s : PassState) : (reportIf worth n >>= f).run s =
      (f ()).run { s with notices := s.notices ++ if worth then [n] else [] } := by
  cases worth
  · simp [reportIf]
  · rfl

theorem require_bind_eq_ok {g : ε → Failure} {e : Except ε α} :
    (require g e >>= f).run s = .ok b t ↔ ∃ a, e = .ok a ∧ (f a).run s = .ok b t := by
  cases e <;> simp

theorem configured_bind_eq_ok {e : Except ConfigError α} :
    (configured e >>= f).run s = .ok b t ↔ ∃ a, e = .ok a ∧ (f a).run s = .ok b t := by
  cases e <;> simp

end Steps

theorem foldlM_inv {l : List α} {f : β → α → PassM β} (I : List α → β → PassState → Prop)
    (step : ∀ l₁ a l₂ b b' s t, l = l₁ ++ a :: l₂ → I l₁ b s → (f b a).run s = .ok b' t →
      I (l₁ ++ [a]) b' t) {b b' : β} (start : I [] b s)
    (h : (l.foldlM f b).run s = .ok b' t) : I l b' t := by
  suffices H : ∀ l₁ l₂ b s, l = l₁ ++ l₂ → I l₁ b s → (l₂.foldlM f b).run s = .ok b' t →
      I l b' t from H [] l b s rfl start h
  intro l₁ l₂
  induction l₂ generalizing l₁ with
  | nil =>
    rintro b s rfl hi h
    rw [List.foldlM_nil, EStateM.run_pure] at h
    cases h
    simpa using hi
  | cons a l₂ ih =>
    intro b s hl hi h
    rw [List.foldlM_cons] at h
    obtain ⟨c, u, hf, h⟩ := bind_eq_ok.mp h
    exact ih (l₁ ++ [a]) c u (by simp [hl]) (step l₁ a l₂ b c s u hl hi hf) h

/-- What every step keeps holds in the end. -/
theorem mapM_inv {l : List α} {f : α → PassM β}
    (I : List α → List β → PassState → Prop)
    (step : ∀ l₁ a l₂ bs b s t, l = l₁ ++ a :: l₂ → I l₁ bs s → (f a).run s = .ok b t →
      I (l₁ ++ [a]) (bs ++ [b]) t) {bs : List β} (start : I [] [] s)
    (h : (l.mapM f).run s = .ok bs t) : I l bs t := by
  suffices H : ∀ l₁ l₂ done bs s, l = l₁ ++ l₂ → I l₁ done s → (l₂.mapM f).run s = .ok bs t →
      I l (done ++ bs) t from H [] l [] bs s rfl start h
  intro l₁ l₂
  induction l₂ generalizing l₁ with
  | nil =>
    rintro done bs s rfl hi h
    cases h
    simpa using hi
  | cons a l₂ ih =>
    intro done bs s hl hi h
    rw [List.mapM_cons] at h
    obtain ⟨b, u, hf, h⟩ := bind_eq_ok.mp h
    obtain ⟨bs, v, hm, h⟩ := bind_eq_ok.mp h
    cases h
    have := ih (l₁ ++ [a]) (done ++ [b]) bs u (by simp [hl]) (step l₁ a l₂ done b s u hl hi hf) hm
    simpa using this

theorem mapM_append_ok {l : List α} {a : α} {f : α → PassM β} {bs : List β} {b : β}
    {u : PassState} (h : (l.mapM f).run s = .ok bs t) (ha : (f a).run t = .ok b u) :
    ((l ++ [a]).mapM f).run s = .ok (bs ++ [b]) u := by
  rw [List.mapM_append]
  refine bind_eq_ok.mpr ⟨bs, t, h, bind_eq_ok.mpr ⟨[b], u, ?_, rfl⟩⟩
  rw [List.mapM_cons]
  exact bind_eq_ok.mpr ⟨b, u, ha, rfl⟩

/-- A fold fails at what comes next to a part that is done. -/
theorem foldlM_eq_error {l : List α} {f : β → α → PassM β} {b : β} {e : Failure}
    (h : (l.foldlM f b).run s = .error e t) : ∃ l₁ a l₂ c u, l = l₁ ++ a :: l₂ ∧
      (l₁.foldlM f b).run s = .ok c u ∧ (f c a).run u = .error e t := by
  induction l generalizing b s with
  | nil => cases h
  | cons a l ih =>
    rw [List.foldlM_cons] at h
    rcases bind_eq_error.mp h with h | ⟨c, u, hf, h⟩
    · exact ⟨[], a, l, b, s, rfl, rfl, h⟩
    · obtain ⟨l₁, x, l₂, d, v, rfl, hd, hx⟩ := ih h
      refine ⟨a :: l₁, x, l₂, d, v, rfl, ?_, hx⟩
      rw [List.foldlM_cons]
      exact bind_eq_ok.mpr ⟨c, u, hf, hd⟩

theorem mapM_eq_error {l : List α} {f : α → PassM β} {e : Failure}
    (h : (l.mapM f).run s = .error e t) : ∃ l₁ a l₂ bs u, l = l₁ ++ a :: l₂ ∧
      (l₁.mapM f).run s = .ok bs u ∧ (f a).run u = .error e t := by
  induction l generalizing s with
  | nil => cases h
  | cons a l ih =>
    rw [List.mapM_cons] at h
    rcases bind_eq_error.mp h with h | ⟨b, u, hf, h⟩
    · exact ⟨[], a, l, [], s, rfl, rfl, h⟩
    rcases bind_eq_error.mp h with h | ⟨bs, v, -, h⟩
    · obtain ⟨l₁, x, l₂, bs, v, rfl, hd, hx⟩ := ih h
      refine ⟨a :: l₁, x, l₂, b :: bs, v, rfl, ?_, hx⟩
      rw [List.mapM_cons]
      exact bind_eq_ok.mpr ⟨b, u, hf, bind_eq_ok.mpr ⟨bs, v, hd, rfl⟩⟩
    · cases h

end Enfold.PassM
