import Enfold.Proofs.Model.Filing
import Enfold.Proofs.Text.Parts

/-! # Implementations under other names

The name of an implementation is put together from a package and the name of a class. If no name
holds a point it can be taken apart again, so it follows the class from name to name. The entry of
the class in a factory follows too, and no other entry comes in.
-/

namespace Enfold.Model

variable {m m' : Model} {c d k w : ClassId} {ws ks : List ClassId} {p : Option String}
  {path path' x y old new key i : String}

/-! ### The parts of a path -/

/-- What stands before the last name of a path, with the point after it. -/
def packagePart (path : String) : String :=
  match (Text.cutAtLast '.' path.toList).1 with
  | some (c :: r) => String.ofList (c :: r) ++ "."
  | _ => ""

theorem besideLast_eq (path name : String) : besideLast path name = packagePart path ++ name := by
  unfold besideLast packagePart
  rcases (Text.cutAtLast '.' path.toList).1 with _ | _ | _
  · exact String.empty_append.symm
  · exact String.empty_append.symm
  · rfl

theorem packagePart_cases (path : String) : packagePart path = "" ∨
    ∃ c r, packagePart path = String.ofList (c :: r) ++ "." := by
  unfold packagePart
  split
  · exact Or.inr ⟨_, _, rfl⟩
  · exact Or.inl rfl

theorem parts_of_append (path : String) (hx : Pointless x) :
    packagePart (packagePart path ++ x) = packagePart path ∧
    String.ofList (Text.cutAtLast '.' (packagePart path ++ x).toList).2 = x := by
  rcases packagePart_cases path with h | ⟨c, r, h⟩ <;> rw [h]
  · rw [packagePart, String.empty_append, Text.cutAtLast_of_notMem hx]
    simp
  · have hcut : Text.cutAtLast '.' (String.ofList (c :: r) ++ "." ++ x).toList =
        (some (c :: r), x.toList) := by
      have := Text.cutAtLast_append (c :: r) hx
      simpa using this
    rw [packagePart, hcut]
    simp

theorem besideLast_inj (hx : Pointless x) (hy : Pointless y) :
    besideLast path x = besideLast path' y ↔ packagePart path = packagePart path' ∧ x = y := by
  rw [besideLast_eq, besideLast_eq]
  constructor
  · intro h
    obtain ⟨hpart, hlast⟩ := parts_of_append path hx
    obtain ⟨hpart', hlast'⟩ := parts_of_append path' hy
    exact ⟨by rw [← hpart, h, hpart'], by rw [← hlast, h, hlast']⟩
  · rintro ⟨h, rfl⟩
    rw [h]

theorem implementationName_inj : implementationName x = implementationName y ↔ x = y :=
  String.append_left_inj _

theorem pointless_implementationName (hx : Pointless x) : Pointless (implementationName x) :=
  hx.append (by decide)

theorem renamedImplementation?_besideLast (hold : Pointless old) :
    renamedImplementation? old new (besideLast path (implementationName old)) =
      some (besideLast path (implementationName new)) := by
  obtain ⟨hpart, hlast⟩ := parts_of_append path (pointless_implementationName hold)
  rw [besideLast_eq, besideLast_eq, renamedImplementation?, if_pos hlast, besideLast_eq, hpart]

theorem followedImplementation_besideLast (hold : Pointless old) :
    followedImplementation old new (besideLast path (implementationName old)) =
      besideLast path (implementationName new) := by
  rw [followedImplementation, renamedImplementation?_besideLast hold, Option.getD_some]

/-- A name in a package stands after the last point of a path. -/
theorem exists_inPackage_eq_besideLast (package : Option String) :
    ∃ path, ∀ name, inPackage package name = besideLast path name := by
  unfold inPackage
  split
  · exact ⟨"", fun name => rfl⟩
  · next package =>
    split
    · exact ⟨"", fun name => rfl⟩
    · next hne =>
      obtain ⟨c, r, hcr⟩ := List.exists_cons_of_ne_nil (mt String.toList_eq_nil_iff.mp hne)
      refine ⟨package ++ ".", fun name => ?_⟩
      have hcut : Text.cutAtLast '.' (package ++ ".").toList = (some (c :: r), []) := by
        have : (package ++ ".").toList = c :: r ++ '.' :: [] := by simp [hcr]
        rw [this, Text.cutAtLast_append _ List.not_mem_nil]
      have hback : String.ofList (c :: r) = package := by rw [← hcr, String.ofList_toList]
      simp only [besideLast, hcut, hback]

/-! ### Entries follow their classes -/

theorem of_isSome_filedAs?_followFactory
    (h : ((m.followFactory c old new).filedAs? p key).isSome) :
    (m.decl c).package = p ∧ key = new ∧ (m.filedAs? p old).isSome ∨
      ((m.decl c).package = p → key ≠ old) ∧ (m.filedAs? p key).isSome := by
  unfold followFactory at h
  dsimp only at h
  cases hf : Assoc.get? (m.decl c).package m.factories with
  | none =>
    rw [hf] at h
    refine Or.inr ⟨?_, h⟩
    rintro rfl
    rw [filedAs?, hf] at h
    cases h
  | some f =>
    rw [hf] at h
    dsimp only at h
    split at h
    · next hold =>
      rw [filedAs?, get?_modifyFactory] at h
      split at h
      · next hp =>
        subst hp
        have hfiled (x : String) : (m.filedAs? (m.decl c).package x).isSome ↔ x ∈ Assoc.keys f := by
          rw [filedAs?, hf, Option.bind_some, Assoc.isSome_get?]
        rw [hf, Option.getD_some, Option.bind_some, Assoc.isSome_get?] at h
        rw [hfiled, hfiled]
        have hold : old ∈ Assoc.keys f := Assoc.isSome_get?.mp hold
        have hkeys : key = new ∨ key ∈ Assoc.keys (Assoc.rename old new f) := by
          split at h
          · exact Assoc.mem_keys_put.mp h
          · exact Or.inr h
        by_cases hnew : key = new
        · exact Or.inl ⟨rfl, hnew, hold⟩
        · obtain ⟨j, hj, hkey⟩ := Assoc.mem_keys_rename.mp (hkeys.resolve_left hnew)
          split at hkey
          · exact absurd hkey.symm hnew
          · next hne => exact Or.inr ⟨fun _ => hkey ▸ hne, hkey ▸ hj⟩
      · next hp => exact Or.inr ⟨fun he => absurd he.symm hp, h⟩
    · next hold =>
      refine Or.inr ⟨?_, h⟩
      rintro rfl rfl
      rw [filedAs?, hf, Option.bind_some] at h
      exact hold h

theorem of_isSome_filedAs?_follow {e : ClassId × String}
    (h : ((m.follow e).filedAs? p key).isSome) :
    (m.decl e.1).package = p ∧ key = m.qualifiedName e.1 ∧ (m.filedAs? p e.2).isSome ∨
      ((m.decl e.1).package = p → key ≠ e.2) ∧ (m.filedAs? p key).isSome := by
  obtain ⟨hf, hc⟩ := factories_followEpisode m e.2 (m.qualifiedName e.1)
  have := of_isSome_filedAs?_followFactory h
  rwa [decl_congr hc, filedAs?_congr hf, filedAs?_congr hf] at this

theorem of_isSome_filedAs?_foldl_follow {P : ClassId → Prop} {oldName : ClassId → String}
    (hstart : ∀ p key, (m.filedAs? p key).isSome →
      ∃ w, P w ∧ (m.decl w).package = p ∧ oldName w = key)
    (hnew : ∀ w ∈ ks, ∀ k ∈ ks, (m.decl w).package = (m.decl k).package →
      m.qualifiedName w ≠ oldName k)
    (halone : ∀ k ∈ ks, ∀ w, P w → (m.decl k).package = (m.decl w).package →
      oldName k = oldName w → k = w)
    (h : (((ks.map fun k => (k, oldName k)).foldl follow m).filedAs? p key).isSome) :
    ∃ w, P w ∧ (m.decl w).package = p ∧
      key = if w ∈ ks then m.qualifiedName w else oldName w := by
  -- The induction is on the classes that are followed, the last of them first.
  induction ks using List.reverseRecOn generalizing p key with
  | nil =>
    obtain ⟨w, hw, hp, hkey⟩ := hstart p key h
    exact ⟨w, hw, hp, by simp [hkey]⟩
  | append_singleton ks k ih =>
    have hnew' (w) (hw : w ∈ ks) (k) (hk : k ∈ ks) :=
      hnew w (List.mem_append_left _ hw) k (List.mem_append_left _ hk)
    have halone' (k) (hk : k ∈ ks) := halone k (List.mem_append_left _ hk)
    have hk : k ∈ ks ++ [k] := by simp
    have hclasses := classes_foldl_follow (ks.map fun k => (k, oldName k)) m
    rw [List.map_append, List.foldl_append] at h
    have hlast := of_isSome_filedAs?_follow h
    rw [decl_congr hclasses, qualifiedName_congr_classes hclasses] at hlast
    rcases hlast with ⟨hp, hkey, hfiled⟩ | ⟨hne, hfiled⟩
    · obtain ⟨w, hw, hpw, hold⟩ := ih hnew' halone' hfiled
      split at hold
      · next hwk =>
        exact absurd hold.symm (hnew w (List.mem_append_left _ hwk) k hk (hpw.trans hp.symm))
      · obtain rfl := halone k hk w hw (hp.trans hpw.symm) hold
        exact ⟨k, hw, hp, by rw [if_pos hk, hkey]⟩
    · obtain ⟨w, hw, hpw, hkey⟩ := ih hnew' halone' hfiled
      refine ⟨w, hw, hpw, ?_⟩
      split at hkey
      · next hwk => rw [if_pos (List.mem_append_left _ hwk), hkey]
      · next hwk =>
        rw [if_neg, hkey]
        rw [List.mem_append, List.mem_singleton]
        rintro (hmem | rfl)
        · exact hwk hmem
        · exact hne hpw hkey

/-- Every entry is that of one of some classes, with its name and implementation. -/
def FilesOnly (m : Model) (ws : List ClassId) : Prop :=
  ∀ p key i, m.filedAs? p key = some i → i ≠ "" ∧ ∃ w ∈ ws, (m.decl w).package = p ∧
    m.qualifiedName w = key ∧ (m.decl w).implementation = some i

/-- Entries stay those of some classes unless a namesake is renamed. -/
theorem FilesOnly.renameClass (h : m.FilesOnly ws) {name : String}
    (hr : m.Renames c (m.renameClass c name)) (hk : m.KeyedOnce) (hc : c.index < m.classes.size)
    (hlt : ∀ w ∈ ws, w.index < m.classes.size)
    (halone : ∀ k ∈ m.subtree c, ∀ w ∈ ws, (m.decl k).package = (m.decl w).package →
      m.qualifiedName k = m.qualifiedName w → k = w) :
    (m.renameClass c name).FilesOnly ws := by
  have alone {w : ClassId} (hw : w ∈ ws) (k) (hk : k ∈ m.subtree c) (hne : k ≠ w)
      (hp : (m.decl k).package = (m.decl w).package) : m.qualifiedName k ≠ m.qualifiedName w :=
    fun he => hne (halone k hk w hw hp he)
  intro p key i hi
  have hfactories := factories_relabel m c name
  have htracked : ∃ w, (w ∈ ws ∧ (m.filed? w).isSome) ∧ ((m.relabel c name).decl w).package = p ∧
      key = if w ∈ m.subtree c then (m.relabel c name).qualifiedName w else m.qualifiedName w := by
    refine of_isSome_filedAs?_foldl_follow (P := fun w => w ∈ ws ∧ (m.filed? w).isSome)
      (fun p key hfiled => ?_) (fun w hw k hk hp => ?_) (fun k hk w hw hp he => ?_)
      (Option.isSome_iff_exists.mpr ⟨i, hi⟩)
    · rw [filedAs?_congr hfactories] at hfiled
      obtain ⟨j, hj⟩ := Option.isSome_iff_exists.mp hfiled
      obtain ⟨-, w, hw, rfl, rfl, -⟩ := h p key j hj
      exact ⟨w, ⟨hw, hfiled⟩, package_relabel m c w name, rfl⟩
    · rw [package_relabel, package_relabel] at hp
      rw [← qualifiedName_renameClass, Ne, qualifiedName_eq_iff (by rw [hr.package_eq, hp])]
      exact hr.localName_ne_of_mem hc hw hk hp
    · rw [package_relabel, package_relabel] at hp
      exact halone k hk w hw.1 hp he
  obtain ⟨w, ⟨hw, hfiled⟩, hp, hkey⟩ := htracked
  rw [package_relabel] at hp
  by_cases hmem : w ∈ m.subtree c
  · rw [if_pos hmem, ← qualifiedName_renameClass] at hkey
    obtain ⟨j, hj⟩ := Option.isSome_iff_exists.mp hfiled
    obtain ⟨hj, v, hv, hpv, hqv, himpl⟩ := h _ _ j hj
    obtain rfl := halone w hmem v hv hpv.symm hqv.symm
    obtain ⟨i', hi', himpl'⟩ := implementation_renameClass hc name himpl hj
    have hself := filed?_renameClass_of_mem hr hk hc hmem hfiled hi' himpl' (alone hw)
    obtain rfl : i' = i := by
      rw [filed?, hr.package_eq, hp, ← hkey] at hself
      exact Option.some.inj (hself.symm.trans hi)
    exact ⟨hi', w, hw, by rw [hr.package_eq, hp], hkey.symm, himpl'⟩
  · rw [if_neg hmem] at hkey
    have hsame := filed?_renameClass_of_notMem hr hk (hlt w hw) hmem (alone hw)
    have hqw : (m.renameClass c name).qualifiedName w = m.qualifiedName w :=
      (qualifiedName_eq_iff (hr.package_eq w)).mpr (hr.localName_of_notMem hmem)
    rw [filed?, hr.package_eq, hp, hqw, ← hkey, hi, filed?, hp, ← hkey] at hsame
    obtain ⟨hi, v, hv, hpv, hqv, himpl⟩ := h p key i hsame.symm
    have hvm : v ∉ m.subtree c := by
      intro hvm
      obtain rfl := halone v hvm w hw (hpv.trans hp.symm) (hqv.trans hkey)
      exact hmem hvm
    have hvc : v ≠ c := by
      rintro rfl
      exact hvm (mem_subtree_self m v)
    refine ⟨hi, v, hv, by rw [hr.package_eq, hpv], ?_, by rw [hr.decl_eq hvc, himpl]⟩
    rw [← hqv]
    exact (qualifiedName_eq_iff (hr.package_eq v)).mpr (hr.localName_of_notMem hvm)

end Enfold.Model
