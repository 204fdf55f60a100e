import Enfold.Proofs.Model.Filing

/-! # What a renaming does to the episode

An episode lists names, and several classes may have one name. When a class is renamed, a listed
name of it or of a class in it gives way to the new one, unless it is the name of some class still.
-/

namespace Enfold

namespace Episode

variable {e : Episode} {old new ref x : String} {refs : List String}

theorem contains_add : (e.add x).contains ref ↔ e.contains ref ∨ ref = x := by
  unfold add
  split
  · next h =>
    constructor
    · exact Or.inl
    · rintro (h' | rfl)
      · exact h'
      · exact h
  · simp [contains]

theorem contains_foldl_add : (refs.foldl add e).contains ref ↔ e.contains ref ∨ ref ∈ refs := by
  induction refs generalizing e with
  | nil => simp
  | cons y refs ih => rw [List.foldl_cons, ih, contains_add, List.mem_cons, or_assoc]

theorem contains_ofList : (ofList refs).contains ref ↔ ref ∈ refs := by
  rw [ofList, contains_foldl_add]
  simp [contains]

theorem contains_rename (h : e.contains old) :
    (e.rename old new).contains ref ↔ e.contains ref ∧ ref ≠ old ∨ ref = new := by
  have hold : old ∈ e.refs := by simpa [contains] using h
  rw [rename, if_pos h, contains_ofList, List.mem_map]
  simp only [contains, List.contains_iff_mem]
  constructor
  · rintro ⟨y, hy, rfl⟩
    by_cases hyo : y = old
    · exact Or.inr (if_pos hyo)
    · rw [if_neg hyo]
      exact Or.inl ⟨hy, hyo⟩
  · rintro (⟨hr, hne⟩ | rfl)
    · exact ⟨ref, hr, if_neg hne⟩
    · exact ⟨old, hold, if_pos rfl⟩

end Episode

namespace Model

variable {m m' : Model} {c d k : ClassId} {old new ref : String}

/-- The model has an episode with the reference. -/
def lists (m : Model) (ref : String) : Bool := m.episode.any (·.contains ref)

def isListed (m : Model) (c : ClassId) : Bool := m.lists (m.qualifiedName c)

theorem isSome_findClass? : (m.findClass? ref).isSome ↔ ∃ d ∈ m.walk, m.qualifiedName d = ref := by
  simp [findClass?, List.find?_isSome]

/-- A listed name gives way, unless some class has it. -/
theorem lists_followEpisode : (m.followEpisode old new).lists ref ↔
    m.lists ref ∧ (ref = old → (m.findClass? old).isSome) ∨ m.lists old ∧ ref = new := by
  unfold followEpisode
  cases he : m.episode with
  | none => simp [lists, he]
  | some e =>
    have hlists (x : String) : m.lists x = e.contains x := by rw [lists, he, Option.any_some]
    dsimp only
    rw [hlists, hlists]
    split
    · next ho =>
      have hne : e.contains ref → ref ≠ old := by
        rintro hr rfl
        simp [hr] at ho
      rw [hlists]
      simp only [Bool.not_eq_true'] at ho
      simp only [ho, Bool.false_eq_true, false_and, or_false]
      exact ⟨fun hr => ⟨hr, fun h => absurd h (hne hr)⟩, And.left⟩
    · next ho =>
      simp only [Bool.not_eq_true, Bool.not_eq_false'] at ho
      split
      · next hf =>
        rw [lists, Option.any_some, Episode.contains_rename ho]
        simp [ho, Option.isNone_iff_eq_none.mp hf]
      · next hf =>
        rw [lists, Option.any_some, Episode.contains_add]
        simp only [Option.isNone_iff_eq_none, ← Option.isSome_iff_ne_none] at hf
        simp [ho, hf]

theorem episode_followFactory : (m.followFactory c old new).episode = m.episode := by
  unfold followFactory
  dsimp only
  split
  · rfl
  · split <;> rfl

theorem lists_follow {e : ClassId × String} : (m.follow e).lists ref ↔
    m.lists ref ∧ (ref = e.2 → (m.findClass? e.2).isSome) ∨
      m.lists e.2 ∧ ref = m.qualifiedName e.1 := by
  rw [follow, lists, episode_followFactory, ← lists, lists_followEpisode]

theorem episode_foldl_setType (ps : List PropertyId) (m : Model) (c : ClassId) (i : String) :
    (ps.foldl (fun m p => if (m.prop p).reference = some c then
      m.modifyProperty p fun q => { q with implementationType := some i } else m) m).episode =
      m.episode := by
  induction ps generalizing m with
  | nil => rfl
  | cons p ps ih =>
    rw [List.foldl_cons, ih]
    split <;> rfl

theorem episode_setImplementation (m : Model) (c : ClassId) (i : String) :
    (m.setImplementation c i).episode = m.episode :=
  episode_foldl_setType m.walkProperties m c i

theorem episode_relabel (m : Model) (c : ClassId) (name : String) :
    (m.relabel c name).episode = m.episode := by
  unfold relabel
  dsimp only
  split
  · rw [episode_setImplementation]
    rfl
  · rfl

theorem findClass?_congr_classes (h : m'.classes = m.classes) (name : String) :
    m'.findClass? name = m.findClass? name := by
  have hw : m'.walk = m.walk := walk_congr (by rw [h]) fun c => by rw [decl_congr h]
  simp only [findClass?, hw, qualifiedName_congr_classes h]

/-- Classes of one former name must have one name now. -/
theorem lists_foldl_follow (before : List (ClassId × String)) (ref : String)
    (hwalk : ∀ e ∈ before, e.1 ∈ m.walk)
    (hsame : ∀ e ∈ before, ∀ x ∈ before, e.2 = x.2 → m.qualifiedName e.1 = m.qualifiedName x.1)
    (hnew : ∀ e ∈ before, ∀ x ∈ before, m.qualifiedName e.1 = x.2 → e.2 = x.2) :
    (before.foldl follow m).lists ref ↔
      m.lists ref ∧ ((∃ e ∈ before, e.2 = ref) → (m.findClass? ref).isSome) ∨
        ∃ e ∈ before, m.lists e.2 ∧ m.qualifiedName e.1 = ref := by
  induction before generalizing m with
  | nil => simp
  | cons x before ih =>
    have hc := classes_follow m x
    have hq (d) : (m.follow x).qualifiedName d = m.qualifiedName d :=
      qualifiedName_congr_classes hc d
    have hw : (m.follow x).walk = m.walk := walk_congr (by rw [hc]) fun d => by rw [decl_congr hc]
    have hfound {e} (he : e ∈ x :: before) : (m.findClass? (m.qualifiedName e.1)).isSome :=
      isSome_findClass?.mpr ⟨e.1, hwalk e he, rfl⟩
    have later {e} (he : e ∈ before) := List.mem_cons_of_mem x he
    rw [List.foldl_cons, ih (fun e he => hw ▸ hwalk e (later he))
      (fun e he y hy => by rw [hq, hq]; exact hsame e (later he) y (later hy))
      (fun e he y hy => by rw [hq]; exact hnew e (later he) y (later hy)),
      findClass?_congr_classes hc]
    simp only [hq]
    constructor
    · rintro (⟨hr, hkeep⟩ | ⟨e, he, hl, rfl⟩)
      · rcases lists_follow.mp hr with ⟨hr, hx⟩ | ⟨hl, rfl⟩
        · refine Or.inl ⟨hr, ?_⟩
          rintro ⟨e, he, rfl⟩
          rcases List.mem_cons.mp he with rfl | he
          · exact hx rfl
          · exact hkeep ⟨e, he, rfl⟩
        · exact Or.inr ⟨x, List.mem_cons_self, hl, rfl⟩
      · rcases lists_follow.mp hl with ⟨hl, -⟩ | ⟨hl, hxe⟩
        · exact Or.inr ⟨e, later he, hl, rfl⟩
        · rw [hnew x List.mem_cons_self e (later he) hxe.symm] at hl
          exact Or.inr ⟨e, later he, hl, rfl⟩
    · rintro (⟨hr, hkeep⟩ | ⟨e, he, hl, rfl⟩)
      · refine Or.inl ⟨lists_follow.mpr (Or.inl ⟨hr, ?_⟩), fun ⟨e, he, h⟩ => hkeep ⟨e, later he, h⟩⟩
        rintro rfl
        exact hkeep ⟨x, List.mem_cons_self, rfl⟩
      · by_cases hex : e.2 = x.2
        · -- The first class of a former name brings the new one in for all of them.
          refine Or.inl ⟨lists_follow.mpr (Or.inr ⟨hex ▸ hl, ?_⟩), fun _ => hfound he⟩
          exact hsame e he x List.mem_cons_self hex
        · rcases List.mem_cons.mp he with rfl | he
          · exact absurd rfl hex
          · exact Or.inr ⟨e, he, lists_follow.mpr (Or.inl ⟨hl, fun h => absurd h hex⟩), rfl⟩

/-! ### The names of a renamed class and of those in it -/

theorem Relabelled.localName_eq_append (hr : m.Relabelled m' [c]) (hk : k ∈ m.subtree c) :
    ∃ rest, (rest = "" ∨ ∃ x, rest = "." ++ x) ∧
      m.localName k = m.localName c ++ rest ∧ m'.localName k = m'.localName c ++ rest := by
  generalize hi : k.index = i
  induction i using Nat.strongRecOn generalizing k with
  | ind i ih =>
    by_cases hkc : k = c
    · subst hkc
      exact ⟨"", Or.inl rfl, by simp, by simp⟩
    · obtain ⟨b, hb, hkb⟩ := exists_mem_children hk hkc
      obtain ⟨-, hp, hlt⟩ := mem_children.mp hkb
      obtain ⟨rest, hrest, hold, hnew⟩ := ih b.index (hi ▸ hlt) hb rfl
      have hp' := ((hr.parent_eq k).1).trans hp
      refine ⟨rest ++ "." ++ (m.decl k).name, Or.inr ?_, ?_, ?_⟩
      · rcases hrest with rfl | ⟨x, rfl⟩
        · exact ⟨(m.decl k).name, by simp⟩
        · exact ⟨x ++ "." ++ (m.decl k).name, by simp only [String.append_assoc]⟩
      · rw [localName, hp]
        dsimp only
        rw [if_pos hlt, hold]
        simp only [String.append_assoc]
      · rw [localName, hp']
        dsimp only
        rw [if_pos hlt, hnew, hr.decl_eq k (by simpa using hkc)]
        simp only [String.append_assoc]

theorem Relabelled.qualifiedName_eq_append (hr : m.Relabelled m' [c]) (hk : k ∈ m.subtree c)
    (hp : (m.decl k).package = (m.decl c).package) : ∃ rest, (rest = "" ∨ ∃ x, rest = "." ++ x) ∧
      m.qualifiedName k = m.qualifiedName c ++ rest ∧
        m'.qualifiedName k = m'.qualifiedName c ++ rest := by
  obtain ⟨rest, hrest, hold, hnew⟩ := hr.localName_eq_append hk
  refine ⟨rest, hrest, ?_, ?_⟩
  · rw [qualifiedName, qualifiedName, hp, hold, inPackage_append]
  · rw [qualifiedName, qualifiedName, (hr.parent_eq k).2, (hr.parent_eq c).2, hp, hnew,
      inPackage_append]

theorem Linked.package_eq_of_mem_subtree (hm : m.Linked) (hk : k ∈ m.subtree c) :
    (m.decl k).package = (m.decl c).package :=
  (of_mem_subtree (P := fun b => (m.decl k).package = (m.decl b).package)
    (fun hp hb => hb.trans (hm.package_eq hp)) hk rfl)

theorem Linked.qualifiedName_renameClass_append (hm : m.Linked) (hc : c.index < m.classes.size)
    (x : String) : (m.renameClass c ((m.decl c).name ++ x)).qualifiedName c =
      m.qualifiedName c ++ x := by
  have hr := m.relabelled_renameClass c ((m.decl c).name ++ x)
  have hself := name_renameClass hc ((m.decl c).name ++ x)
  cases hp : (m.decl c).parent with
  | none =>
    rw [qualifiedName_of_root ((hr.parent_eq c).1.trans hp), qualifiedName_of_root hp, hself,
      (hr.parent_eq c).2, inPackage_append]
  | some b =>
    have hb := hr.qualifiedName_of_notMem (d := b) fun d hd =>
      List.mem_singleton.mp hd ▸ hm.parent_notMem_subtree hp
    rw [qualifiedName_of_parent (hr.linked hm) ((hr.parent_eq c).1.trans hp),
      qualifiedName_of_parent hm hp, hself, hb]
    simp only [String.append_assoc]

theorem toString_append_ne (i : Nat) (x : String) {y : String}
    (hy : y = "" ∨ ∃ z, y = "." ++ z) : toString i ++ x ≠ y := by
  intro h
  obtain ⟨a, l, hl⟩ := List.exists_cons_of_ne_nil (show (toString i).toList ≠ [] by simp)
  have ht := congrArg String.toList h
  rw [String.toList_append, hl] at ht
  rcases hy with rfl | ⟨z, rfl⟩
  · cases ht
  · rw [String.toList_append] at ht
    have hpoint : ".".toList = ['.'] := by decide
    rw [hpoint, List.cons_append, List.cons_append] at ht
    have hmem : '.' ∈ (toString i).toList := by
      rw [hl, (List.cons.inj ht).1]
      exact List.mem_cons_self
    exact pointless_toString i hmem

theorem Linked.eq_of_qualifiedName_renameClass (hm : m.Linked) (hc : c.index < m.classes.size)
    {name : String}
    (hname : name = (m.decl c).name ∨ ∃ i : Nat, name = (m.decl c).name ++ toString i)
    (hk : k ∈ m.subtree c) (hd : d ∈ m.subtree c)
    (h : (m.renameClass c name).qualifiedName k = m.qualifiedName d) :
    m.qualifiedName k = m.qualifiedName d := by
  have hr := m.relabelled_renameClass c name
  obtain ⟨x, hx, hxold, hxnew⟩ :=
    hr.qualifiedName_eq_append hk (hm.package_eq_of_mem_subtree hk)
  obtain ⟨y, hy, hyold, -⟩ := hr.qualifiedName_eq_append hd (hm.package_eq_of_mem_subtree hd)
  rcases hname with rfl | ⟨i, rfl⟩
  · have hself := hm.qualifiedName_renameClass_append hc ""
    rw [String.append_empty, String.append_empty] at hself
    rw [← h, hxold, hxnew, hself]
  · -- The number after the name would have to start with a point or to be empty.
    rw [hxnew, hm.qualifiedName_renameClass_append hc, hyold, String.append_assoc] at h
    exact absurd ((String.append_right_inj _).mp h) (toString_append_ne i x hy)

/-- New names replace former ones that no class has any more. -/
theorem Linked.lists_renameClass (hm : m.Linked) (hc : c.index < m.classes.size) {name : String}
    (hname : name = (m.decl c).name ∨ ∃ i : Nat, name = (m.decl c).name ++ toString i) :
    (m.renameClass c name).lists ref ↔
      m.lists ref ∧ ((∃ k ∈ m.subtree c, m.qualifiedName k = ref) →
        ∃ d ∈ m.walk, (m.renameClass c name).qualifiedName d = ref) ∨
      ∃ k ∈ m.subtree c, m.isListed k ∧ (m.renameClass c name).qualifiedName k = ref := by
  have hr := m.relabelled_renameClass c name
  have hq (d) : (m.relabel c name).qualifiedName d = (m.renameClass c name).qualifiedName d :=
    (qualifiedName_renameClass m c d name).symm
  have hclasses : (m.renameClass c name).classes = (m.relabel c name).classes := by
    rw [renameClass_eq, classes_foldl_follow]
  have hwalk : (m.relabel c name).walk = m.walk := by
    rw [← hr.walk_eq]
    exact walk_congr (by rw [hclasses]) fun d => by rw [decl_congr hclasses]
  have hlists (x) : (m.relabel c name).lists x = m.lists x := by
    rw [lists, episode_relabel, lists]
  have h := lists_foldl_follow (m := m.relabel c name)
    ((m.subtree c).map fun k => (k, m.qualifiedName k)) ref ?_ ?_ ?_
  · rw [← renameClass_eq] at h
    simp only [List.mem_map, exists_exists_and_eq_and, isSome_findClass?, hq, hwalk, hlists] at h
    exact h
  · rintro _ he
    obtain ⟨k, hk, rfl⟩ := List.mem_map.mp he
    exact hwalk ▸ (mem_walk hm).mpr (lt_of_mem_subtree hk hc)
  · rintro _ he _ hx h
    obtain ⟨k, hk, rfl⟩ := List.mem_map.mp he
    obtain ⟨d, hd, rfl⟩ := List.mem_map.mp hx
    obtain ⟨x, -, hxold, hxnew⟩ := hr.qualifiedName_eq_append hk (hm.package_eq_of_mem_subtree hk)
    obtain ⟨y, -, hyold, hynew⟩ := hr.qualifiedName_eq_append hd (hm.package_eq_of_mem_subtree hd)
    dsimp only at h
    rw [hxold, hyold, String.append_right_inj] at h
    rw [hq, hq, hxnew, hynew, h]
  · rintro _ he _ hx h
    obtain ⟨k, hk, rfl⟩ := List.mem_map.mp he
    obtain ⟨d, hd, rfl⟩ := List.mem_map.mp hx
    rw [hq] at h
    exact hm.eq_of_qualifiedName_renameClass hc hname hk hd h

end Model
end Enfold
