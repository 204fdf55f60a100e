import Mathlib.Data.List.Induction
import Mathlib.Data.List.Nodup
import Enfold.Assoc

/-! # Ordered associations

Every association that is built by putting entries has each key once. Writing one key for another
leaves the entries of all other keys alone.
-/

namespace Enfold.Assoc

variable {κ α : Type _} [DecidableEq κ] {k k' old new : κ} {a : α} {m : Assoc κ α}

theorem get?_eq_none (h : k ∉ keys m) : get? k m = none := by
  induction m with
  | nil => rfl
  | cons e m ih =>
    obtain ⟨hk, hm⟩ := List.ne_and_not_mem_of_not_mem_cons h
    rw [get?, if_neg (Ne.symm hk), ih hm]

theorem isSome_get? : (get? k m).isSome ↔ k ∈ keys m := by
  induction m with
  | nil => simp [keys]
  | cons e m ih =>
    obtain ⟨j, b⟩ := e
    unfold keys at ih ⊢
    by_cases hj : j = k
    · simp [get?, hj]
    · simp [get?, hj, ih, Ne.symm hj]

theorem get?_append (m m' : List (κ × α)) : get? k (m ++ m') = (get? k m).or (get? k m') := by
  induction m with
  | nil => rfl
  | cons e m ih =>
    obtain ⟨j, b⟩ := e
    by_cases hj : j = k
    · simp [get?, hj]
    · simp [get?, hj, ih]

theorem get?_map {β : Type _} (f : α → β) (m : Assoc κ α) :
    get? k (m.map fun e => (e.1, f e.2)) = (get? k m).map f := by
  induction m with
  | nil => rfl
  | cons e m ih =>
    obtain ⟨j, b⟩ := e
    by_cases hj : j = k
    · simp [get?, hj]
    · simp [get?, hj, ih]

theorem get?_reverse_cons (e : κ × α) (m : List (κ × α)) :
    get? k (e :: m).reverse = (get? k m.reverse).or (if e.1 = k then some e.2 else none) := by
  rw [List.reverse_cons, get?_append]
  rfl

theorem get?_reverse (h : (keys m).Nodup) : get? k m.reverse = get? k m := by
  induction m with
  | nil => rfl
  | cons e m ih =>
    obtain ⟨hj, hm⟩ := List.nodup_cons.mp h
    rw [get?_reverse_cons, ih hm, get?]
    split
    · next hk => rw [get?_eq_none (hk ▸ hj), Option.none_or]
    · exact Option.or_none

theorem get?_put (k' : κ) (a : α) (m : Assoc κ α) :
    get? k (put k' a m) = if k' = k then some a else get? k m := by
  split
  · next hk => exact hk ▸ get?_put_self k' a m
  · next hk => exact get?_put_of_ne hk a m

theorem merge_cons (m : Assoc κ α) (e : κ × α) (later : List (κ × α)) :
    merge m (e :: later) = merge (put e.1 e.2 m) later :=
  rfl

/-- What comes later counts first. -/
theorem get?_merge (later : List (κ × α)) :
    get? k (merge m later) = (get? k later.reverse).or (get? k m) := by
  induction later generalizing m with
  | nil => rfl
  | cons e later ih =>
    rw [merge_cons, ih, get?_put, get?_reverse_cons, Option.or_assoc]
    split <;> rfl

theorem mem_of_mem_put {e : κ × α} (h : e ∈ put k a m) : e = (k, a) ∨ e ∈ m := by
  induction m with
  | nil => exact Or.inl (List.mem_singleton.mp h)
  | cons x m ih =>
    rw [put] at h
    split at h
    · next hk =>
      rw [hk] at h
      exact (List.mem_cons.mp h).imp_right (List.mem_cons_of_mem _)
    · rcases List.mem_cons.mp h with rfl | h
      · exact Or.inr List.mem_cons_self
      · exact (ih h).imp_right (List.mem_cons_of_mem _)

theorem mem_keys_put : k' ∈ keys (put k a m) ↔ k' = k ∨ k' ∈ keys m := by
  induction m with
  | nil => simp [put, keys]
  | cons e m ih =>
    obtain ⟨j, b⟩ := e
    unfold keys at ih ⊢
    by_cases hj : j = k
    · simp [put, hj]
    · simp only [put, hj, if_false, List.map_cons, List.mem_cons, ih]
      tauto

/-- The keys that are there keep their places. -/
theorem keys_prefix_keys_merge (later : List (κ × α)) : keys m <+: keys (merge m later) := by
  have put (m : Assoc κ α) (e : κ × α) : keys m <+: keys (put e.1 e.2 m) := by
    induction m with
    | nil => exact List.nil_prefix
    | cons x m ih =>
      rw [Assoc.put]
      split
      · exact List.prefix_rfl
      · exact (List.prefix_cons_inj x.1).mpr ih
  induction later generalizing m with
  | nil => exact List.prefix_rfl
  | cons e later ih => exact (put m e).trans ih

theorem nodup_keys_put (h : (keys m).Nodup) : (keys (put k a m)).Nodup := by
  induction m with
  | nil => exact List.nodup_singleton k
  | cons e m ih =>
    obtain ⟨j, b⟩ := e
    obtain ⟨hj, hm⟩ := List.nodup_cons.mp h
    by_cases hjk : j = k
    · rw [put, if_pos hjk]
      exact h
    · rw [put, if_neg hjk]
      refine List.nodup_cons.mpr ⟨fun hmem => ?_, ih hm⟩
      exact (mem_keys_put.mp hmem).elim hjk hj

theorem nodup_keys_merge {later : List (κ × α)} (h : (keys m).Nodup) :
    (keys (merge m later)).Nodup := by
  induction later generalizing m with
  | nil => exact h
  | cons e later ih => exact ih (nodup_keys_put h)

theorem mem_keys_merge {later : List (κ × α)} :
    k ∈ keys (merge m later) ↔ k ∈ keys m ∨ k ∈ keys later := by
  induction later generalizing m with
  | nil => simp [merge, keys]
  | cons e later ih =>
    rw [merge_cons, ih, mem_keys_put]
    simp only [keys, List.map_cons, List.mem_cons]
    tauto

theorem mem_keys_rename :
    k ∈ keys (rename old new m) ↔ ∃ j ∈ keys m, (if j = old then new else j) = k := by
  rw [rename, ofList, mem_keys_merge]
  simp [keys]

theorem nodup_keys_rename (m : Assoc κ α) : (keys (rename old new m)).Nodup :=
  nodup_keys_merge List.nodup_nil

theorem get?_rename_of_ne (h : (keys m).Nodup) (hold : k ≠ old) (hnew : k ≠ new) :
    get? k (rename old new m) = get? k m := by
  suffices H : ∀ acc : Assoc κ α, get? k (merge acc (m.map fun e =>
      (if e.1 = old then new else e.1, e.2))) = (get? k m).or (get? k acc) by
    rw [rename, ofList, H, get?_nil, Option.or_none]
  induction m with
  | nil => exact fun _ => rfl
  | cons e m ih =>
    obtain ⟨j, b⟩ := e
    obtain ⟨hj, hm⟩ := List.nodup_cons.mp h
    intro acc
    have hstep := ih hm (put (if j = old then new else j) b acc)
    rw [List.map_cons, merge, List.foldl_cons]
    refine hstep.trans ?_
    by_cases hjk : j = k
    · subst hjk
      rw [if_neg hold, get?_put_self, get?_eq_none hj, get?, if_pos rfl]
      rfl
    · have hne : (if j = old then new else j) ≠ k := by
        split
        · exact Ne.symm hnew
        · exact hjk
      rw [get?_put_of_ne hne, get?, if_neg hjk]

theorem get?_of_mem (h : (keys m).Nodup) (hm : (k, a) ∈ m) : get? k m = some a := by
  induction m with
  | nil => cases hm
  | cons e m ih =>
    obtain ⟨hj, hr⟩ := List.nodup_cons.mp h
    rcases List.mem_cons.mp hm with rfl | hm
    · exact if_pos rfl
    · have hne : e.1 ≠ k := fun he => hj (he ▸ List.mem_map_of_mem (f := Prod.fst) hm)
      rw [get?, if_neg hne, ih hr hm]

/-! ### New keys -/

theorem put_of_notMem (h : k ∉ keys m) (a : α) : put k a m = m ++ [(k, a)] := by
  induction m with
  | nil => rfl
  | cons e m ih =>
    obtain ⟨hk, hm⟩ := List.ne_and_not_mem_of_not_mem_cons h
    rw [put, if_neg (Ne.symm hk), ih hm, List.cons_append]

theorem ofList_of_nodup (h : (keys m).Nodup) : ofList m = m := by
  suffices H : ∀ acc : Assoc κ α, (keys (acc ++ m)).Nodup → merge acc m = acc ++ m from H [] h
  clear h
  induction m with
  | nil => exact fun acc _ => (List.append_nil acc).symm
  | cons e m ih =>
    intro acc h
    have hsplit : acc ++ e :: m = acc ++ [e] ++ m := by simp
    have hnew : e.1 ∉ keys acc := by
      rw [keys, List.map_append, List.map_cons, List.nodup_append] at h
      exact fun hmem => h.2.2 _ hmem _ List.mem_cons_self rfl
    rw [merge_cons, put_of_notMem hnew, hsplit]
    exact ih _ (hsplit ▸ h)

/-! ### One association on top of another -/

theorem put_put_self (b : α) : put k b (put k a m) = put k b m := by
  induction m with
  | nil => simp [put]
  | cons e m ih =>
    by_cases hj : e.1 = k
    · simp [put, hj]
    · simp [put, hj, ih]

theorem put_of_get? (h : get? k m = some a) : put k a m = m := by
  induction m with
  | nil => cases h
  | cons e m ih =>
    rw [get?] at h
    rw [put]
    split at h
    · next hk => rw [if_pos hk, ← Option.some.inj h]
    · next hk => rw [if_neg hk, ih h]

theorem put_put_comm {b : α} (hk : k ∈ keys m) (hne : k' ≠ k) :
    put k a (put k' b m) = put k' b (put k a m) := by
  induction m with
  | nil => simp [keys] at hk
  | cons e m ih =>
    obtain ⟨j, c⟩ := e
    by_cases hj : j = k
    · subst hj
      simp [put, hne.symm]
    · have hm : k ∈ keys m := (List.mem_cons.mp hk).resolve_left fun h => hj h.symm
      by_cases hj' : j = k'
      · simp [put, hj', hne]
      · simp [put, hj, hj', ih hm]

theorem put_merge_comm {later : List (κ × α)} (hk : k ∈ keys m) (hl : k ∉ keys later) (a : α) :
    put k a (merge m later) = merge (put k a m) later := by
  induction later generalizing m with
  | nil => rfl
  | cons e later ih =>
    obtain ⟨hne, hl⟩ := List.ne_and_not_mem_of_not_mem_cons hl
    rw [merge_cons, merge_cons, ih (mem_keys_put.mpr (Or.inr hk)) hl, put_put_comm hk hne.symm]

/-- Putting an entry commutes with putting the association on top of another one. -/
theorem merge_put {later : Assoc κ α} (h : (keys later).Nodup) :
    merge m (put k a later) = put k a (merge m later) := by
  induction later generalizing m with
  | nil => rfl
  | cons e later ih =>
    obtain ⟨hj, hl⟩ := List.nodup_cons.mp h
    by_cases hk : e.1 = k
    · subst hk
      have hmem : e.1 ∈ keys (put e.1 e.2 m) := mem_keys_put.mpr (Or.inl rfl)
      rw [merge_cons, put_merge_comm hmem hj, put_put_self, put, if_pos rfl, merge_cons]
    · rw [put, if_neg hk, merge_cons, merge_cons, ih hl]

theorem nodup_keys_ofList (l : List (κ × α)) : (keys (ofList l)).Nodup :=
  nodup_keys_merge List.nodup_nil

theorem merge_ofList (m : Assoc κ α) (l : List (κ × α)) : merge m (ofList l) = merge m l := by
  induction l using List.reverseRecOn with
  | nil => rfl
  | append_singleton l e ih =>
    have hput (m : Assoc κ α) : merge m (l ++ [e]) = put e.1 e.2 (merge m l) := by simp [merge]
    rw [hput, ← ih, ofList, hput]
    exact merge_put (nodup_keys_ofList l)

/-! ### Entries at their places -/

theorem nodup_map_replace {l : List κ} (h : l.Nodup) (hnew : new ∉ l) :
    (l.map fun x => if x = old then new else x).Nodup := by
  refine h.map_on fun x hx y hy hxy => ?_
  split at hxy <;> split at hxy
  · next hx' hy' => rw [hx', hy']
  · exact absurd (hxy ▸ hy) hnew
  · exact absurd (hxy ▸ hx) hnew
  · exact hxy

/-- A key that is written as a new one keeps its place. -/
theorem rename_eq_map (h : (keys m).Nodup) (hnew : new ∉ keys m) :
    rename old new m = m.map fun e => (if e.1 = old then new else e.1, e.2) := by
  refine ofList_of_nodup ?_
  have : ((keys m).map fun x => if x = old then new else x).Nodup := nodup_map_replace h hnew
  rwa [keys, List.map_map] at this ⊢

theorem put_eq_map (h : (keys m).Nodup) (hk : k ∈ keys m) (a : α) :
    put k a m = m.map fun e => if e.1 = k then (k, a) else e := by
  induction m with
  | nil => cases hk
  | cons e m ih =>
    obtain ⟨hj, hm⟩ := List.nodup_cons.mp h
    rw [put, List.map_cons]
    split
    · next he =>
      have hrest : m.map (fun x => if x.1 = k then (k, a) else x) = m := by
        refine (List.map_congr_left fun x hx => if_neg fun hxk => hj ?_).trans (List.map_id m)
        exact he.trans hxk.symm ▸ List.mem_map_of_mem hx
      rw [he, hrest]
    · next he => rw [ih hm ((List.mem_cons.mp hk).resolve_left fun hke => he hke.symm)]

theorem put_rename_eq_map (h : (keys m).Nodup) (hold : old ∈ keys m) (hnew : new ∉ keys m)
    (a : α) : put new a (rename old new m) =
      m.map fun e => if e.1 = old then (new, a) else e := by
  have hmem : new ∈ keys (rename old new m) := mem_keys_rename.mpr ⟨old, hold, if_pos rfl⟩
  rw [put_eq_map (nodup_keys_rename m) hmem, rename_eq_map h hnew, List.map_map]
  refine List.map_congr_left fun e he => ?_
  have hne : e.1 ≠ new := fun hen => hnew (hen ▸ List.mem_map_of_mem he)
  by_cases heo : e.1 = old <;> simp [heo, hne]

end Enfold.Assoc
