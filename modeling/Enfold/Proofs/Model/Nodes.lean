import Enfold.Proofs.Model.Draft

/-! # Names in raw graphs

Where names and packages are texts, the classes of a raw graph are called as the list of entries
says. So the base that a class asks for is found among them exactly if some entry has its name.
-/

namespace Enfold.Description

open Raw

variable {l : Listing} {n : Node} {ls : List Listing} {ns : List Node} {s : Scope}
  {package : Value} {around : Option Node}

def Listing.qualifiedName (l : Listing) : String := Model.inPackage l.package l.localName

/-- A class of a raw graph is named as an entry, and asks for the same base. -/
structure Calls (l : Listing) (n : Node) : Prop where
  package_eq : n.package.textOrNull? = some l.package
  localName_eq : n.localName = .text l.localName
  base_eq : n.entry.base = baseMember l.entry

theorem textOrNull?_eq_some {v : Value} {t : Option String} :
    v.textOrNull? = some t ↔ v = .null ∧ t = none ∨ ∃ s, v = .text s ∧ t = some s := by
  cases v <;> simp [Value.textOrNull?, eq_comm]

theorem Calls.qualifiedName_eq (h : Calls l n) : n.qualifiedName = .text l.qualifiedName := by
  rcases textOrNull?_eq_some.mp h.package_eq with ⟨hn, hl⟩ | ⟨p, hn, hl⟩
  · simp [Node.qualifiedName, Listing.qualifiedName, Model.inPackage, hn, hl, h.localName_eq,
      Value.isTruthy]
  · by_cases hp : p = "" <;>
      simp [Node.qualifiedName, Listing.qualifiedName, Model.inPackage, hn, hl, h.localName_eq,
        Value.isTruthy, Value.plain, hp]

/-- The next classes of a raw graph stand in a scope of the list. -/
def Surrounds (package : Value) (around : Option Node) : Scope → Prop
  | .top default => around = none ∧ package.textOrNull? = some default
  | .inside _ p name => ∃ n, around = some n ∧ n.package.textOrNull? = some p ∧
    n.localName = .text name

theorem calls_nodeOf {ms : Members} {x : Raw.ClassEntry} {e : Enfold.ClassEntry}
    (hx : classEntry ms = .ok x) (he : x.lettered? = some e) (h : Surrounds package around s) :
    Calls (s.listing (.object ms)) (nodeOf package around x) := by
  obtain ⟨hname, hpackage, hbase, -⟩ := classEntry_eq_ok hx
  obtain ⟨htext, hlettered, -, -⟩ := ClassEntry.lettered?_eq_some he
  have hnameOf : nameOf (.object ms) = e.name := by
    simp [nameOf, Value.member?, hname, htext, Value.asText?]
  cases s with
  | top default =>
    obtain ⟨rfl, hdefault⟩ := h
    refine ⟨?_, htext.trans (congrArg Value.text hnameOf.symm), hbase⟩
    rw [hpackage] at hlettered
    simp only [nodeOf, Scope.listing, Scope.packageOf, Value.member?, hpackage]
    cases hp : Assoc.get? "package" ms with
    | none => exact hdefault
    | some v =>
      rw [hp] at hlettered
      obtain ⟨t, ht, -⟩ := Option.map_eq_some_iff.mp (by simpa using hlettered)
      rw [Option.getD_some, Option.map_some, Option.getD_some, ht, eq_asText?_of_textOrNull? ht]
  | inside place p name =>
    obtain ⟨k, rfl, hp, hlocal⟩ := h
    refine ⟨hp, ?_, hbase⟩
    simp [nodeOf, Scope.listing, Scope.localNameOf, hlocal, htext, hnameOf, Value.plain]

theorem surrounds_within {place : Nat} {entry : Value} (h : Calls (s.listing entry) n) :
    Surrounds package (some n) (s.within place entry) :=
  ⟨n, rfl, h.package_eq, h.localName_eq⟩

mutual

theorem calls_tree : ∀ {r : Raw.ClassTree} {v : Value} {t : Enfold.ClassTree} {s : Scope}
    {place : Nat} {around : Option Node}, tree v = .ok r → r.lettered? = some t →
    Surrounds package around s → List.Forall₂ Calls (listing s place v) (r.nodes package around)
  | .node x rs, v, t, s, place, around, hr, ht, h => by
    obtain ⟨ms, rfl, hx, hrs⟩ := of_tree_eq_ok hr
    obtain ⟨e, he, ts, hts, rfl⟩ := ClassTree.lettered?_eq_some.mp ht
    have hcalls := calls_nodeOf hx he h
    rw [listing_object, ClassTree.nodes]
    exact .cons hcalls (calls_trees hrs hts (surrounds_within hcalls))

theorem calls_trees : ∀ {rs : List Raw.ClassTree} {vs : List Value} {ts : List Enfold.ClassTree}
    {s : Scope} {place : Nat} {around : Option Node}, trees vs = .ok rs →
    letteredTrees? rs = some ts → Surrounds package around s →
    List.Forall₂ Calls (listings s place vs) (nodesIn package around rs)
  | [], vs, ts, s, place, around, hr, ht, h => by
    obtain rfl := of_trees_nil_eq_ok hr
    exact .nil
  | r :: rs, vs, ts, s, place, around, hr, ht, h => by
    obtain ⟨v, vs, rfl, hv, hvs⟩ := of_trees_cons_eq_ok hr
    obtain ⟨t, hrt, ts, hts, rfl⟩ := letteredTrees?_cons_eq_some.mp ht
    rw [listings, nodesIn]
    exact List.rel_append (calls_tree hv hrt h) (calls_trees hvs hts h)

end

/-- A description has the package that its list starts with. -/
theorem package_eq_of_lettered {v : Value} {r : Raw.Description} {d : Enfold.Description}
    (hr : Raw.Description.ofValue v = .ok r) (hd : r.lettered? = some d) :
    r.package.textOrNull? = some d.package ∧ d.package = packageOf v ∧
      letteredTrees? r.classes = some d.classes ∧ trees ((classesOf v).getD []) = .ok r.classes := by
  simp only [Description.lettered?, Option.bind_eq_bind, Option.bind_eq_some_iff, Option.pure_def,
    Option.some.injEq] at hd
  obtain ⟨package, hpackage, episode, -, ts, hts, rfl⟩ := hd
  unfold Raw.Description.ofValue at hr
  split at hr
  · next classes hc =>
    obtain ⟨refs, -, hr⟩ := exceptBind_eq_ok.mp hr
    obtain ⟨rs, hrs, hr⟩ := exceptBind_eq_ok.mp hr
    cases hr
    refine ⟨hpackage, ?_, hts, by rw [hc]; exact hrs⟩
    unfold packageOf
    cases hv : v.member? "package" with
    | none => rw [hv] at hpackage; cases hpackage; rfl
    | some p => rw [hv] at hpackage; exact eq_asText?_of_textOrNull? hpackage
  · cases hr

theorem calls_nodes {v : Value} {r : Raw.Description} {d : Enfold.Description}
    (hr : Raw.Description.ofValue v = .ok r) (hd : r.lettered? = some d) :
    List.Forall₂ Calls (listed v) r.nodes := by
  obtain ⟨hpackage, heq, hts, hrs⟩ := package_eq_of_lettered hr hd
  exact calls_trees hrs hts ⟨rfl, heq ▸ hpackage⟩

/-! ### Bases -/

theorem exists_basePlace : (∃ i, basePlace ns n = .ok i) ↔
    (n.entry.base.isTruthy → ∃ k ∈ ns, Value.same k.qualifiedName n.entry.base) := by
  unfold basePlace
  split
  · next hbase =>
    have hfound : (ns.findIdx? fun b => Value.same b.qualifiedName n.entry.base).isSome =
        ns.any fun b => Value.same b.qualifiedName n.entry.base := List.findIdx?_isSome
    split
    · next hi =>
      rw [hi, Option.isSome_some, eq_comm, List.any_eq_true] at hfound
      exact ⟨fun _ _ => hfound, fun _ => ⟨_, rfl⟩⟩
    · next hi =>
      rw [hi, Option.isSome_none, eq_comm, List.any_eq_false] at hfound
      constructor
      · rintro ⟨_, ⟨⟩⟩
      · intro h
        obtain ⟨k, hk, hsame⟩ := h hbase
        exact absurd hsame (hfound k hk)
  · next hbase => exact ⟨fun _ h => absurd h hbase, fun _ => ⟨_, rfl⟩⟩

theorem exists_basePlaces (h : List.Forall₂ Calls ls ns) :
    (∃ bases, ns.mapM (basePlace ns) = .ok bases) ↔ ∀ l ∈ ls, (baseMember l.entry).isTruthy →
      ∃ k ∈ ls, baseMember l.entry = .text k.qualifiedName := by
  have hfound (base : Value) : (∃ k ∈ ns, Value.same k.qualifiedName base) ↔
      ∃ k ∈ ls, base = .text k.qualifiedName := by
    constructor
    · rintro ⟨k, hk, hsame⟩
      obtain ⟨l, hl, hcalls⟩ := exists_left_of_forall₂ h hk
      rw [hcalls.qualifiedName_eq, Value.same_text] at hsame
      exact ⟨l, hl, hsame⟩
    · rintro ⟨l, hl, rfl⟩
      obtain ⟨k, hk, hcalls⟩ := exists_left_of_forall₂ h.flip hl
      exact ⟨k, hk, by rw [hcalls.qualifiedName_eq, Value.same_text]⟩
  rw [exists_mapM_eq_ok]
  constructor
  · intro hall l hl
    obtain ⟨n, hn, hcalls⟩ := exists_left_of_forall₂ h.flip hl
    have hplace := exists_basePlace.mp (hall n hn)
    rwa [hcalls.base_eq, hfound] at hplace
  · intro hall n hn
    obtain ⟨l, hl, hcalls⟩ := exists_left_of_forall₂ h hn
    rw [exists_basePlace, hcalls.base_eq, hfound]
    exact hall l hl

end Enfold.Description
