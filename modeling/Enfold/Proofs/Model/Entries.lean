import Enfold.Proofs.Assoc
import Enfold.Proofs.Except
import Enfold.Model.Build

/-! # The entries of a description

A description lists classes, and each of them may list others that are nested in it. The entries for
all of them are put into one list, each before those nested in it, and a description is read as this
list is checked, entry by entry, up to the first that is amiss.
-/

namespace Enfold.Description

open Raw

/-- The package at the top, or the class around with its place, package and name. -/
inductive Scope where
  | top (default : Option String)
  | inside (place : Nat) (package : Option String) (localName : String)

/-- An entry of a description, with what follows of it and of those around it. -/
structure Listing where
  /-- The place of the class around this one in the list of all classes. -/
  parent : Option Nat
  package : Option String
  localName : String
  entry : Value

def nameOf (entry : Value) : String := ((entry.member? "name").bind Value.asText?).getD ""

def baseMember (entry : Value) : Value := (entry.member? "base").getD .null

namespace Scope

def packageOf (entry : Value) : Scope → Option String
  | top default => ((entry.member? "package").map Value.asText?).getD default
  | inside _ package _ => package

def localNameOf (entry : Value) : Scope → String
  | top _ => nameOf entry
  | inside _ _ localName => localName ++ "." ++ nameOf entry

def parent : Scope → Option Nat
  | top _ => none
  | inside place _ _ => some place

def listing (s : Scope) (entry : Value) : Listing where
  parent := s.parent
  package := s.packageOf entry
  localName := s.localNameOf entry
  entry

def within (s : Scope) (place : Nat) (entry : Value) : Scope :=
  inside place (s.packageOf entry) (s.localNameOf entry)

end Scope

mutual

def listing (s : Scope) (place : Nat) : Value → List Listing
  | .object ms =>
    s.listing (.object ms) :: nestedListings (s.within place (.object ms)) (place + 1) ms
  | v => [s.listing v]

def nestedListings (s : Scope) (place : Nat) : List (String × Value) → List Listing
  | [] => []
  | (k, v) :: r => if k = "nested" then listingsIn s place v else nestedListings s place r

def listingsIn (s : Scope) (place : Nat) : Value → List Listing
  | .list xs => listings s place xs
  | .object ms => ms.map fun m => s.listing (.text m.1)
  | .text t => t.toList.map fun c => s.listing (.text c.toString)
  | .null | .bool _ | .int _ | .decimal _ => []

def listings (s : Scope) (place : Nat) : List Value → List Listing
  | [] => []
  | v :: r => listing s place v ++ listings s (place + (listing s place v).length) r

end

/-! ### Reading is checking the list -/

/-- Reads an entry by itself, and whether those nested in it can be run through. -/
def check : Value → Except DescriptionError Unit
  | .object ms => do
    let _ ← classEntry ms
    let _ ← entries (nestedMember ms)
    return
  | v => refuseClass v

theorem refuseClass_ne_ok {α : Type} {v : Value} {a : α} : refuseClass v ≠ .ok a := by
  unfold refuseClass refuse ill
  split <;> (try split) <;> simp

theorem refuseClass_character {α : Type} (c : Char) :
    refuseClass (.text c.toString) = (.error .classWithoutName : Except DescriptionError α) := by
  have hshort : Text.occursIn "name".toList c.toString.toList = false := by
    simp [Text.occursIn, List.isPrefixOf]
  simp only [refuseClass, refuse, hshort]
  rfl

theorem map_refuseClass {α : Type} (v : Value) :
    (refuseClass v : Except DescriptionError α).map (fun _ => ()) = refuseClass v := by
  unfold refuseClass refuse ill
  split <;> (try split) <;> rfl

theorem refuseClass_bind {α β : Type} (v : Value) (f : α → Except DescriptionError β) :
    (refuseClass v >>= f) = refuseClass v := by
  unfold refuseClass refuse ill
  split <;> (try split) <;> rfl

mutual

/-- A tree is read if its list is, and else fails as that does. -/
theorem tree_eq : ∀ (s : Scope) (place : Nat) (v : Value),
    (tree v).map (fun _ => ()) = forM (listing s place v) fun l => check l.entry
  | s, place, .object ms => by
    have hnested := nestedTrees_eq (s.within place (.object ms)) (place + 1) ms
    rw [tree, listing, List.forM_cons, exceptMap_bind]
    change _ = (check (.object ms) >>= fun _ => _)
    rw [check, bind_assoc]
    refine bind_congr fun e => ?_
    rw [exceptMap_bind, bind_assoc]
    refine Eq.trans ?_ hnested
    cases nestedTrees ms <;> rfl
  | s, _, .null | s, _, .bool _ | s, _, .int _ | s, _, .decimal _ | s, _, .text _
  | s, _, .list _ => by
    rw [tree, listing, List.forM_cons, map_refuseClass]
    exact (refuseClass_bind _ _).symm
    all_goals exact nofun

theorem nestedTrees_eq : ∀ (s : Scope) (place : Nat) (ms : List (String × Value)),
    (nestedTrees ms).map (fun _ => ()) =
      (entries (nestedMember ms) >>= fun _ =>
        forM (nestedListings s place ms) fun l => check l.entry)
  | _, _, [] => rfl
  | s, place, (k, v) :: r => by
    rw [nestedTrees, nestedListings, nestedMember, member, Assoc.get?]
    split
    · exact treesIn_eq s place v
    · exact nestedTrees_eq s place r

theorem treesIn_eq : ∀ (s : Scope) (place : Nat) (v : Value),
    (treesIn v).map (fun _ => ()) =
      (entries v >>= fun _ => forM (listingsIn s place v) fun l => check l.entry)
  | s, place, .list xs => by
    rw [treesIn, listingsIn]
    exact trees_eq s place xs
  | _, _, .object [] => rfl
  | s, place, .object (m :: ms) => by
    rw [treesIn, listingsIn, map_refuseClass, List.map_cons, List.forM_cons]
    exact (refuseClass_bind _ _).symm
  | s, place, .text t => by
    rw [treesIn, listingsIn]
    cases ht : t.toList with
    | nil =>
      obtain rfl : t = "" := String.toList_inj.mp ht
      rfl
    | cons c cs =>
      have hne : t ≠ "" := by rintro rfl; cases ht
      rw [if_neg hne, List.map_cons, List.forM_cons]
      change _ = (refuseClass (.text c.toString) >>= fun _ => _)
      rw [refuseClass_character]
      rfl
  | _, _, .null | _, _, .bool _ | _, _, .int _ | _, _, .decimal _ => rfl

theorem trees_eq : ∀ (s : Scope) (place : Nat) (vs : List Value),
    (trees vs).map (fun _ => ()) = forM (listings s place vs) fun l => check l.entry
  | _, _, [] => rfl
  | s, place, v :: r => by
    rw [trees, listings, List.forM_append, ← tree_eq s place v,
      ← trees_eq s (place + (listing s place v).length) r, exceptMap_bind]
    cases tree v with
    | error e => rfl
    | ok t => cases trees r <;> rfl

end

/-! ### Nested entries -/

/-- What is read for the classes nested in one. -/
def nestedValues (ms : Members) : List Value := (nestedMember ms).parts?.getD []

theorem tree_text (t : String) : tree (.text t) = refuseClass (.text t) := by
  rw [tree]
  exact nofun

theorem treesIn_eq_entries (v : Value) : treesIn v = entries v >>= trees := by
  cases v with
  | null | bool | int | decimal | list => rfl
  | object ms =>
    cases ms with
    | nil => rfl
    | cons m ms =>
      change _ = trees (.text m.1 :: ms.map fun m => .text m.1)
      rw [treesIn, trees, tree_text, refuseClass_bind]
  | text t =>
    change _ = trees (t.toList.map fun c => .text c.toString)
    rw [treesIn]
    cases ht : t.toList with
    | nil =>
      obtain rfl : t = "" := String.toList_inj.mp ht
      rfl
    | cons c cs =>
      have hne : t ≠ "" := by rintro rfl; cases ht
      rw [if_neg hne, List.map_cons, trees, tree_text, refuseClass_bind, refuseClass_character]

theorem nestedTrees_eq_entries (ms : Members) :
    nestedTrees ms = entries (nestedMember ms) >>= trees := by
  unfold nestedMember member
  induction ms with
  | nil => rfl
  | cons m ms ih =>
    obtain ⟨k, v⟩ := m
    rw [nestedTrees, Assoc.get?]
    split
    · exact treesIn_eq_entries v
    · exact ih

theorem listings_texts {α : Type} (s : Scope) (place : Nat) (f : α → String) (l : List α) :
    listings s place (l.map fun a => .text (f a)) = l.map fun a => s.listing (.text (f a)) := by
  induction l generalizing place with
  | nil => rfl
  | cons a l ih =>
    rw [List.map_cons, listings, ih, listing]
    · rfl
    · exact nofun

theorem listingsIn_eq (s : Scope) (place : Nat) (v : Value) :
    listingsIn s place v = listings s place (v.parts?.getD []) := by
  cases v with
  | null | bool | int | decimal | list => rfl
  | object ms => exact (listings_texts s place Prod.fst ms).symm
  | text t => exact (listings_texts s place Char.toString t.toList).symm

theorem listing_object (s : Scope) (place : Nat) (ms : Members) :
    listing s place (.object ms) = s.listing (.object ms) ::
      listings (s.within place (.object ms)) (place + 1) (nestedValues ms) := by
  have h (s : Scope) (place : Nat) :
      nestedListings s place ms = listings s place (nestedValues ms) := by
    unfold nestedValues nestedMember member
    induction ms with
    | nil => rfl
    | cons m ms ih =>
      obtain ⟨k, v⟩ := m
      rw [nestedListings, Assoc.get?]
      split
      · exact listingsIn_eq s place v
      · exact ih
  rw [listing, h]

/-! ### Trees that are read -/

theorem of_tree_eq_ok {v : Value} {x : Raw.ClassEntry} {rs : List Raw.ClassTree}
    (h : tree v = .ok (.node x rs)) :
    ∃ ms, v = .object ms ∧ classEntry ms = .ok x ∧ trees (nestedValues ms) = .ok rs := by
  unfold tree at h
  split at h
  · next ms =>
    obtain ⟨y, hy, h⟩ := exceptBind_eq_ok.mp h
    obtain ⟨ts, hts, h⟩ := exceptBind_eq_ok.mp h
    cases h
    rw [nestedTrees_eq_entries, exceptBind_eq_ok] at hts
    obtain ⟨values, hvalues, hts⟩ := hts
    have heq : nestedValues ms = values := by
      unfold entries at hvalues
      unfold nestedValues
      split at hvalues
      · next hp => cases hvalues; rw [hp, Option.getD_some]
      · cases hvalues
    exact ⟨ms, rfl, hy, heq ▸ hts⟩
  · exact absurd h refuseClass_ne_ok

theorem of_trees_cons_eq_ok {vs : List Value} {r : Raw.ClassTree} {rs : List Raw.ClassTree}
    (h : trees vs = .ok (r :: rs)) :
    ∃ v vs', vs = v :: vs' ∧ tree v = .ok r ∧ trees vs' = .ok rs := by
  cases vs with
  | nil => cases h
  | cons v vs' =>
    rw [trees] at h
    obtain ⟨t, ht, h⟩ := exceptBind_eq_ok.mp h
    obtain ⟨ts, hts, h⟩ := exceptBind_eq_ok.mp h
    cases h
    exact ⟨v, vs', rfl, ht, hts⟩

theorem of_trees_nil_eq_ok {vs : List Value} (h : trees vs = .ok []) : vs = [] := by
  cases vs with
  | nil => rfl
  | cons v vs' =>
    rw [trees] at h
    obtain ⟨t, -, h⟩ := exceptBind_eq_ok.mp h
    obtain ⟨ts, -, h⟩ := exceptBind_eq_ok.mp h
    cases h

end Enfold.Description
