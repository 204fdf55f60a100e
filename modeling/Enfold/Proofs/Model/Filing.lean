import Enfold.Proofs.Assoc
import Enfold.Proofs.Model.Siblings

/-! # The entries of factories

A class is filed in the factory of its package under its qualified name. A renaming takes the
entries of all that is nested in a class along, unless a name on the way belongs to another class.
-/

namespace Enfold.Model

variable {m m' : Model} {c d k w : ClassId} {p package : Option String} {key old new : String}

def filedAs? (m : Model) (package : Option String) (key : String) : Option String :=
  (Assoc.get? package m.factories).bind (Assoc.get? key)

/-- What the factory of its package has for a class. -/
def filed? (m : Model) (c : ClassId) : Option String :=
  m.filedAs? (m.decl c).package (m.qualifiedName c)

/-- No factory has an entry twice. -/
def KeyedOnce (m : Model) : Prop :=
  ∀ p f, Assoc.get? p m.factories = some f → (Assoc.keys f).Nodup

theorem get?_modifyFactory (F : Factory → Factory) :
    Assoc.get? p (m.modifyFactory package F).factories =
      if p = package then some (F ((Assoc.get? package m.factories).getD []))
      else Assoc.get? p m.factories := by
  rw [modifyFactory]
  split
  · next h => rw [h, Assoc.get?_put_self]
  · next h => rw [Assoc.get?_put_of_ne (Ne.symm h)]

theorem KeyedOnce.modifyFactory (h : m.KeyedOnce) {F : Factory → Factory}
    (hF : ∀ f, (Assoc.keys f).Nodup → (Assoc.keys (F f)).Nodup) :
    (m.modifyFactory package F).KeyedOnce := by
  intro p f hf
  rw [get?_modifyFactory] at hf
  split at hf
  · cases hf
    refine hF _ ?_
    cases hp : Assoc.get? package m.factories with
    | none => exact List.nodup_nil
    | some g => exact h _ g hp
  · exact h p f hf

theorem filedAs?_modifyFactory_put (m : Model) (package : Option String) (name i : String) :
    (m.modifyFactory package (Assoc.put name i)).filedAs? p key =
      if p = package ∧ key = name then some i else m.filedAs? p key := by
  rw [filedAs?, get?_modifyFactory, filedAs?]
  by_cases hp : p = package
  · subst hp
    rw [if_pos rfl, Option.bind_some]
    by_cases hkey : key = name
    · rw [hkey, if_pos ⟨rfl, rfl⟩, Assoc.get?_put_self]
    · rw [if_neg fun h => hkey h.2, Assoc.get?_put_of_ne (Ne.symm hkey)]
      cases Assoc.get? p m.factories <;> rfl
  · rw [if_neg hp, if_neg fun h => hp h.1]

/-! ### One class is followed -/

theorem KeyedOnce.followFactory (h : m.KeyedOnce) : (m.followFactory c old new).KeyedOnce := by
  unfold Model.followFactory
  dsimp only
  split
  · exact h
  · split
    · refine h.modifyFactory fun f _ => ?_
      split
      · exact Assoc.nodup_keys_put (Assoc.nodup_keys_rename f)
      · exact Assoc.nodup_keys_rename f
    · exact h

theorem filedAs?_followFactory_of_ne (h : m.KeyedOnce)
    (hne : (m.decl c).package = p → key ≠ old ∧ key ≠ new) :
    (m.followFactory c old new).filedAs? p key = m.filedAs? p key := by
  unfold followFactory
  dsimp only
  split
  · rfl
  · next f hf =>
    split
    · rw [filedAs?, get?_modifyFactory]
      split
      · next hp =>
        obtain ⟨hold, hnew⟩ := hne hp.symm
        have hren : Assoc.get? key (Assoc.rename old new f) = Assoc.get? key f :=
          Assoc.get?_rename_of_ne (h _ f hf) hold hnew
        rw [filedAs?, hp, hf, Option.getD_some, Option.bind_some, Option.bind_some]
        split
        · rw [Assoc.get?_put_of_ne hnew.symm, hren]
        · exact hren
      · rfl
    · rfl

theorem filedAs?_followFactory_self {i : String}
    (hi : (m.decl c).implementation.filter (· ≠ "") = some i)
    (hold : (m.filedAs? (m.decl c).package old).isSome) :
    (m.followFactory c old new).filedAs? (m.decl c).package new = some i := by
  obtain ⟨x, hx⟩ := Option.isSome_iff_exists.mp hold
  obtain ⟨f, hf, hx⟩ := Option.bind_eq_some_iff.mp hx
  unfold followFactory
  dsimp only
  rw [hf]
  dsimp only
  rw [if_pos (by rw [Assoc.contains, hx]; rfl), filedAs?, get?_modifyFactory, if_pos rfl, hi]
  exact Assoc.get?_put_self new i _

/-! ### All that is nested in a class is followed -/

theorem factories_followEpisode (m : Model) (old new : String) :
    (m.followEpisode old new).factories = m.factories ∧
      (m.followEpisode old new).classes = m.classes := by
  unfold followEpisode
  split
  · exact ⟨rfl, rfl⟩
  · split
    · exact ⟨rfl, rfl⟩
    · split <;> exact ⟨rfl, rfl⟩

theorem decl_congr (h : m'.classes = m.classes) (d : ClassId) : m'.decl d = m.decl d := by
  rw [decl, h, decl]

theorem qualifiedName_congr_classes (h : m'.classes = m.classes) (d : ClassId) :
    m'.qualifiedName d = m.qualifiedName d :=
  qualifiedName_congr (fun c => by rw [decl_congr h]; exact ⟨rfl, rfl, rfl⟩) d

theorem filedAs?_congr (h : m'.factories = m.factories) (p : Option String) (key : String) :
    m'.filedAs? p key = m.filedAs? p key := by
  rw [filedAs?, h, filedAs?]

theorem KeyedOnce.congr (h : m.KeyedOnce) (hf : m'.factories = m.factories) : m'.KeyedOnce := by
  intro p f hp
  rw [hf] at hp
  exact h p f hp

theorem classes_follow (m : Model) (e : ClassId × String) : (m.follow e).classes = m.classes := by
  unfold follow followFactory
  dsimp only
  rw [← (factories_followEpisode m e.2 (m.qualifiedName e.1)).2]
  split
  · rfl
  · split <;> rfl

theorem KeyedOnce.follow (h : m.KeyedOnce) (e : ClassId × String) : (m.follow e).KeyedOnce :=
  (h.congr (factories_followEpisode m _ _).1).followFactory

theorem filedAs?_follow_of_ne (h : m.KeyedOnce) {e : ClassId × String}
    (hne : (m.decl e.1).package = p → key ≠ e.2 ∧ key ≠ m.qualifiedName e.1) :
    (m.follow e).filedAs? p key = m.filedAs? p key := by
  obtain ⟨hf, hc⟩ := factories_followEpisode m e.2 (m.qualifiedName e.1)
  rw [follow, filedAs?_followFactory_of_ne (h.congr hf), filedAs?_congr hf]
  rwa [decl_congr hc]

theorem filedAs?_follow_self {e : ClassId × String} {i : String}
    (hi : (m.decl e.1).implementation.filter (· ≠ "") = some i)
    (hold : (m.filedAs? (m.decl e.1).package e.2).isSome) :
    (m.follow e).filedAs? (m.decl e.1).package (m.qualifiedName e.1) = some i := by
  obtain ⟨hf, hc⟩ := factories_followEpisode m e.2 (m.qualifiedName e.1)
  rw [follow, ← decl_congr hc e.1]
  refine filedAs?_followFactory_self ?_ ?_
  · rwa [decl_congr hc]
  · rwa [decl_congr hc, filedAs?_congr hf]

theorem classes_foldl_follow (before : List (ClassId × String)) (m : Model) :
    (before.foldl follow m).classes = m.classes := by
  induction before generalizing m with
  | nil => rfl
  | cons e before ih => exact (ih _).trans (classes_follow m e)

theorem KeyedOnce.foldl_follow (before : List (ClassId × String)) (h : m.KeyedOnce) :
    (before.foldl Model.follow m).KeyedOnce := by
  induction before generalizing m with
  | nil => exact h
  | cons e before ih => exact ih (h.follow e)

theorem filedAs?_foldl_follow_of_ne {before : List (ClassId × String)} (h : m.KeyedOnce)
    (hne : ∀ e ∈ before, (m.decl e.1).package = p → key ≠ e.2 ∧ key ≠ m.qualifiedName e.1) :
    (before.foldl follow m).filedAs? p key = m.filedAs? p key := by
  induction before generalizing m with
  | nil => rfl
  | cons e before ih =>
    have hc := classes_follow m e
    have hrest := ih (h.follow e) fun x hx => by
      rw [decl_congr hc, qualifiedName_congr_classes hc]
      exact hne x (List.mem_cons_of_mem _ hx)
    exact hrest.trans (filedAs?_follow_of_ne h (hne e List.mem_cons_self))

/-- A followed class is filed under its own name, unless others get in its way. -/
theorem filedAs?_foldl_follow_self (l₁ l₂ : List (ClassId × String)) {e : ClassId × String}
    {i : String} (h : m.KeyedOnce) (hi : (m.decl e.1).implementation.filter (· ≠ "") = some i)
    (hold : (m.filedAs? (m.decl e.1).package e.2).isSome)
    (hearlier : ∀ x ∈ l₁, (m.decl x.1).package = (m.decl e.1).package →
      e.2 ≠ x.2 ∧ e.2 ≠ m.qualifiedName x.1)
    (hlater : ∀ x ∈ l₂, (m.decl x.1).package = (m.decl e.1).package →
      m.qualifiedName e.1 ≠ x.2 ∧ m.qualifiedName e.1 ≠ m.qualifiedName x.1) :
    ((l₁ ++ e :: l₂).foldl follow m).filedAs? (m.decl e.1).package (m.qualifiedName e.1) =
      some i := by
  rw [List.foldl_append, List.foldl_cons]
  have hentry := filedAs?_foldl_follow_of_ne h hearlier
  have hkeyed := h.foldl_follow l₁
  have hclasses := classes_foldl_follow l₁ m
  generalize l₁.foldl follow m = m₁ at hentry hkeyed hclasses
  rw [← decl_congr hclasses e.1, ← qualifiedName_congr_classes hclasses e.1]
  have hself : (m₁.follow e).filedAs? (m₁.decl e.1).package (m₁.qualifiedName e.1) = some i := by
    refine filedAs?_follow_self ?_ ?_
    · rwa [decl_congr hclasses]
    · rwa [decl_congr hclasses, hentry]
  have hc := classes_follow m₁ e
  rw [filedAs?_foldl_follow_of_ne (hkeyed.follow e) fun x hx => ?_, hself]
  rw [decl_congr hc, qualifiedName_congr_classes hc, decl_congr hclasses, decl_congr hclasses,
    qualifiedName_congr_classes hclasses, qualifiedName_congr_classes hclasses]
  exact hlater x hx

/-! ### A class is renamed -/

theorem factories_foldl_setType (ps : List PropertyId) (m : Model) (c : ClassId) (i : String) :
    (ps.foldl (fun m p => if (m.prop p).reference = some c then
      m.modifyProperty p fun q => { q with implementationType := some i } else m) m).factories =
      m.factories := by
  induction ps generalizing m with
  | nil => rfl
  | cons p ps ih =>
    rw [List.foldl_cons, ih]
    split <;> rfl

theorem factories_setImplementation (m : Model) (c : ClassId) (i : String) :
    (m.setImplementation c i).factories = m.factories := by
  unfold setImplementation
  exact factories_foldl_setType m.walkProperties m c i

theorem factories_relabel (m : Model) (c : ClassId) (name : String) :
    (m.relabel c name).factories = m.factories := by
  unfold relabel
  dsimp only
  split
  · rw [factories_setImplementation]
    rfl
  · rfl

theorem KeyedOnce.renameClass (h : m.KeyedOnce) (c : ClassId) (name : String) :
    (m.renameClass c name).KeyedOnce := by
  rw [renameClass_eq]
  exact (h.congr (factories_relabel m c name)).foldl_follow _

structure Filed (m : Model) (w : ClassId) (i : String) : Prop where
  ne_empty : i ≠ ""
  implementation : (m.decl w).implementation = some i
  filed : m.filed? w = some i

theorem qualifiedName_eq_iff (hp : (m.decl w).package = (m'.decl k).package) :
    m.qualifiedName w = m'.qualifiedName k ↔ m.localName w = m'.localName k := by
  rw [qualifiedName, qualifiedName, hp]
  exact ⟨inPackage_injective _, fun h => by rw [h]⟩

theorem besideLast_ne_empty (path : String) {name : String} (h : name ≠ "") :
    besideLast path name ≠ "" := by
  unfold besideLast
  split
  · intro he
    exact h (String.append_eq_empty_iff.mp he).2
  · exact h

theorem implementationName_ne_empty (name : String) : implementationName name ≠ "" := by
  intro he
  exact absurd (String.append_eq_empty_iff.mp he).2 (by decide)

def followedImplementation (old new implementation : String) : String :=
  (renamedImplementation? old new implementation).getD implementation

theorem followedImplementation_ne_empty {i : String} (old new : String) (hi : i ≠ "") :
    followedImplementation old new i ≠ "" := by
  unfold followedImplementation renamedImplementation?
  split
  · exact besideLast_ne_empty _ (implementationName_ne_empty new)
  · exact hi

theorem implementation_renameClass_self (hc : c.index < m.classes.size) (name : String) :
    ((m.renameClass c name).decl c).implementation =
      (m.decl c).implementation.map (followedImplementation (m.decl c).name name) := by
  have hsame : ((m.modifyClass c fun d => { d with name := name }).decl c).implementation =
      (m.decl c).implementation := by rw [decl_modifyClass hc, if_pos rfl]
  rw [decl_renameClass]
  unfold relabel
  dsimp only
  rw [hsame]
  cases hi : (m.decl c).implementation with
  | none => exact hsame.trans hi
  | some i =>
    rw [Option.bind_some, Option.map_some, followedImplementation]
    cases renamedImplementation? (m.decl c).name name i with
    | none => exact hsame.trans hi
    | some j => exact implementation_setImplementation (by simpa using hc) j

/-- A renaming may move an implementation, but not lose it. -/
theorem implementation_renameClass {i : String} (hc : c.index < m.classes.size) (name : String)
    (hw : (m.decl w).implementation = some i) (hi : i ≠ "") :
    ∃ i', i' ≠ "" ∧ ((m.renameClass c name).decl w).implementation = some i' := by
  by_cases hwc : w = c
  · subst hwc
    rw [implementation_renameClass_self hc, hw]
    exact ⟨_, followedImplementation_ne_empty _ _ hi, rfl⟩
  · rw [(m.relabelled_renameClass c name).decl_eq w (by simpa using hwc)]
    exact ⟨i, hi, hw⟩

theorem qualifiedName_renameClass (m : Model) (c d : ClassId) (name : String) :
    (m.renameClass c name).qualifiedName d = (m.relabel c name).qualifiedName d :=
  qualifiedName_congr (fun e => by rw [decl_renameClass]; exact ⟨rfl, rfl, rfl⟩) d

theorem package_relabel (m : Model) (c d : ClassId) (name : String) :
    ((m.relabel c name).decl d).package = (m.decl d).package := by
  rw [← decl_renameClass, ((m.relabelled_renameClass c name).parent_eq d).2]

theorem filed?_renameClass_of_mem {i : String} {name : String}
    (hr : m.Renames c (m.renameClass c name)) (hk : m.KeyedOnce) (hc : c.index < m.classes.size)
    (hmem : w ∈ m.subtree c) (hfiled : (m.filed? w).isSome) (hi : i ≠ "")
    (himpl : ((m.renameClass c name).decl w).implementation = some i)
    (halone : ∀ k ∈ m.subtree c, k ≠ w → (m.decl k).package = (m.decl w).package →
      m.qualifiedName k ≠ m.qualifiedName w) :
    (m.renameClass c name).filed? w = some i := by
  obtain ⟨l₁, l₂, hsplit⟩ := List.append_of_mem hmem
  have hnodup : (m.subtree c).Nodup := (pairwise_subtree hr.linked c).imp And.left
  have hne {k : ClassId} (hkm : k ∈ l₁ ∨ k ∈ l₂) : k ∈ m.subtree c ∧ k ≠ w := by
    rw [hsplit, List.nodup_append, List.nodup_cons] at hnodup
    refine ⟨by rw [hsplit]; simp [hkm.imp_right Or.inr], ?_⟩
    rintro rfl
    rcases hkm with hkm | hkm
    · exact hnodup.2.2 k hkm k List.mem_cons_self rfl
    · exact hnodup.2.1.1 hkm
  have hfollow := filedAs?_foldl_follow_self
    (l₁.map fun k => (k, m.qualifiedName k)) (l₂.map fun k => (k, m.qualifiedName k))
    (e := (w, m.qualifiedName w)) (i := i) (hk.congr (factories_relabel m c name)) ?_ ?_ ?_ ?_
  · dsimp only at hfollow
    rw [filed?, qualifiedName_renameClass, decl_renameClass, renameClass_eq, hsplit,
      List.map_append, List.map_cons, hfollow]
  · rw [← decl_renameClass, himpl, Option.filter_some, if_pos (by simpa using hi)]
  · rwa [package_relabel, filedAs?_congr (factories_relabel m c name)]
  · rintro _ hx hp
    obtain ⟨k, hkm, rfl⟩ := List.mem_map.mp hx
    obtain ⟨hkm, hkw⟩ := hne (Or.inl hkm)
    rw [package_relabel, package_relabel] at hp
    refine ⟨(halone k hkm hkw hp).symm, ?_⟩
    rw [← qualifiedName_renameClass, Ne, qualifiedName_eq_iff (by rw [hr.package_eq, hp])]
    exact (hr.localName_ne_of_mem hc hkm hmem hp).symm
  · rintro _ hx hp
    obtain ⟨k, hkm, rfl⟩ := List.mem_map.mp hx
    obtain ⟨hkm, hkw⟩ := hne (Or.inr hkm)
    rw [package_relabel, package_relabel] at hp
    rw [← qualifiedName_renameClass, ← qualifiedName_renameClass]
    constructor
    · rw [Ne, qualifiedName_eq_iff (by rw [hr.package_eq, hp])]
      exact hr.localName_ne_of_mem hc hmem hkm hp.symm
    · rw [Ne, qualifiedName_eq_iff (by rw [hr.package_eq, hr.package_eq, hp])]
      intro he
      have := hr.localName_eq_of_mem hmem hkm hp.symm he
      exact halone k hkm hkw hp ((qualifiedName_eq_iff hp).mpr this.symm)

theorem filed?_renameClass_of_notMem {name : String} (hr : m.Renames c (m.renameClass c name))
    (hk : m.KeyedOnce) (hw : w.index < m.classes.size) (hmem : w ∉ m.subtree c)
    (halone : ∀ k ∈ m.subtree c, k ≠ w → (m.decl k).package = (m.decl w).package →
      m.qualifiedName k ≠ m.qualifiedName w) :
    (m.renameClass c name).filed? w = m.filed? w := by
  have hq : (m.renameClass c name).qualifiedName w = m.qualifiedName w :=
    (qualifiedName_eq_iff (hr.package_eq w)).mpr (hr.localName_of_notMem hmem)
  rw [filed?, hq, hr.package_eq, filed?, renameClass_eq,
    filedAs?_foldl_follow_of_ne (hk.congr (factories_relabel m c name)) ?_,
    filedAs?_congr (factories_relabel m c name)]
  intro x hx hp
  obtain ⟨k, hkm, rfl⟩ := List.mem_map.mp hx
  rw [package_relabel] at hp
  have hkw : k ≠ w := by
    rintro rfl
    exact hmem hkm
  refine ⟨(halone k hkm hkw hp).symm, ?_⟩
  rw [← qualifiedName_renameClass, Ne, qualifiedName_eq_iff (by rw [hr.package_eq, hp])]
  exact (hr.localName_ne_of_notMem hkm hmem hw hp).symm

/-- A class stays filed unless a namesake is renamed instead of it. -/
theorem Filed.renameClass {i : String} {name : String} (h : m.Filed w i)
    (hr : m.Renames c (m.renameClass c name)) (hk : m.KeyedOnce) (hc : c.index < m.classes.size)
    (hw : w.index < m.classes.size)
    (halone : ∀ k ∈ m.subtree c, k ≠ w → (m.decl k).package = (m.decl w).package →
      m.qualifiedName k ≠ m.qualifiedName w) :
    ∃ i', (m.renameClass c name).Filed w i' := by
  by_cases hmem : w ∈ m.subtree c
  · obtain ⟨i', hi', himpl⟩ := implementation_renameClass hc name h.implementation h.ne_empty
    have hfiled : (m.filed? w).isSome := Option.isSome_iff_exists.mpr ⟨i, h.filed⟩
    exact ⟨i', hi', himpl, filed?_renameClass_of_mem hr hk hc hmem hfiled hi' himpl halone⟩
  · have hwc : w ≠ c := by
      rintro rfl
      exact hmem (mem_subtree_self m w)
    refine ⟨i, h.ne_empty, ?_, ?_⟩
    · rw [hr.decl_eq hwc, h.implementation]
    · rw [filed?_renameClass_of_notMem hr hk hw hmem halone, h.filed]

/-! ### References and implementations -/

/-- A property that refers to a class names the implementation of that class. -/
def Accords (m : Model) : Prop :=
  ∀ q w, (m.prop q).reference = some w → w.index < m.classes.size ∧
    (∃ c, (m.prop q).owner = some c) ∧
      (m.prop q).implementationType = (m.decl w).implementation

theorem Accords.renameClass (h : m.Accords) (hm : m.Linked) (hc : c.index < m.classes.size)
    (name : String) : (m.renameClass c name).Accords := by
  intro q w hq
  have hrel := m.relabelled_renameClass c name
  obtain ⟨_, hprop⟩ := hrel.prop q
  have hqm : (m.prop q).reference = some w := by
    rw [hprop] at hq
    exact hq
  obtain ⟨hlt, ⟨o, ho⟩, htype⟩ := h q w hqm
  refine ⟨hrel.size ▸ hlt, ⟨o, by rw [hprop]; exact ho⟩, ?_⟩
  have hname : m.Relabelled (m.modifyClass c fun d => { d with name := name }) [c] :=
    relabelled_modifyClass fun e => ⟨_, _, rfl⟩
  have himpl : ((m.modifyClass c fun d => { d with name := name }).decl w).implementation =
      (m.decl w).implementation := by
    rcases decl_modifyClass_or (m := m) (c := c) (fun d => { d with name := name }) w with e | e <;>
      rw [e]
  rw [prop_renameClass, decl_renameClass]
  unfold relabel
  dsimp only
  split
  · next i _ =>
    rw [prop_setImplementation, prop_modifyClass]
    by_cases hwc : w = c
    · subst hwc
      have hlisted : q ∈ ((m.modifyClass w fun d => { d with name := name }).decl o).properties :=
        (hname.linked hm).mem_iff_owner.mpr (by rw [prop_modifyClass, ho])
      have hwalk := mem_walkProperties ((mem_walk (hname.linked hm)).mpr (class_lt_of_mem hlisted))
        hlisted
      rw [if_pos ⟨hwalk, hqm⟩, implementation_setImplementation (by simpa using hc)]
    · have hset := (relabelled_setImplementation
        (m.modifyClass c fun d => { d with name := name }) c i).decl_eq w (by simpa using hwc)
      rw [if_neg fun hand => hwc (Option.some.inj (hqm.symm.trans hand.2)), hset, himpl, htype]
  · rw [prop_modifyClass, himpl, htype]

end Enfold.Model
