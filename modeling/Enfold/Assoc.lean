/-! # Ordered associations

An association gives each key at most one value and lists its keys in the order in which they
were first put. Putting a key again keeps its place, so the order never depends on how often a
value changed.
-/

namespace Enfold

/-- Entries in the order in which their keys were first put. -/
abbrev Assoc (κ α : Type _) := List (κ × α)

namespace Assoc

variable {κ α : Type _} [DecidableEq κ]

def get? (k : κ) : Assoc κ α → Option α
  | [] => none
  | (k', a) :: r => if k' = k then some a else get? k r

def contains (k : κ) (m : Assoc κ α) : Bool := (get? k m).isSome

def keys (m : Assoc κ α) : List κ := m.map Prod.fst

/-- A key that is there keeps its place, a new one comes last. -/
def put (k : κ) (a : α) : Assoc κ α → Assoc κ α
  | [] => [(k, a)]
  | (k', b) :: r => if k' = k then (k', a) :: r else (k', b) :: put k a r

def merge (m later : Assoc κ α) : Assoc κ α := later.foldl (fun acc e => put e.1 e.2 acc) m

/-- The association of a list of entries, of which the last for a key wins. -/
def ofList (entries : List (κ × α)) : Assoc κ α := merge [] entries

/-- Writes `new` for the key `old`, which may make two entries one. -/
def rename (old new : κ) (m : Assoc κ α) : Assoc κ α :=
  ofList (m.map fun e => (if e.1 = old then new else e.1, e.2))

@[simp] theorem get?_nil (k : κ) : get? k ([] : Assoc κ α) = none := rfl

theorem mem_of_get? {k : κ} {a : α} {m : Assoc κ α} (h : get? k m = some a) : (k, a) ∈ m := by
  induction m with
  | nil => cases h
  | cons e r ih =>
    rw [get?] at h
    split at h
    · next hk =>
      obtain rfl := Option.some.inj h
      exact hk ▸ List.mem_cons_self
    · exact List.mem_cons_of_mem _ (ih h)

theorem get?_put_self (k : κ) (a : α) (m : Assoc κ α) : get? k (put k a m) = some a := by
  induction m with
  | nil => simp [put, get?]
  | cons e r ih =>
    obtain ⟨k', b⟩ := e
    by_cases h : k' = k <;> simp [put, get?, h, ih]

theorem get?_put_of_ne {k k' : κ} (h : k' ≠ k) (a : α) (m : Assoc κ α) :
    get? k (put k' a m) = get? k m := by
  induction m with
  | nil => simp [put, get?, h]
  | cons e r ih =>
    obtain ⟨j, b⟩ := e
    by_cases hj : j = k'
    · subst hj; simp [put, get?, h]
    · simp [put, get?, hj, ih]

end Assoc
end Enfold
