import Enfold.Model.Rename
import Enfold.Proofs.Model.Names
import Enfold.Proofs.Model.Walk

/-! # What a renaming changes

A renaming changes the name of one class, what is named after it, and nothing that the links of a
model depend on.
-/

namespace Enfold.Model

/-- Two models that differ in the names and implementations of some classes. -/
structure Relabelled (m m' : Model) (cs : List ClassId) : Prop where
  size : m'.classes.size = m.classes.size
  size_properties : m'.properties.size = m.properties.size
  decl : ∀ d, ∃ name i, m'.decl d = { m.decl d with name := name, implementation := i }
  decl_eq : ∀ d, d ∉ cs → m'.decl d = m.decl d
  prop : ∀ p, ∃ i, m'.prop p = { m.prop p with implementationType := i }
  prop_eq : ∀ p, (∀ c ∈ cs, (m.prop p).reference ≠ some c) → m'.prop p = m.prop p

variable {m m' m'' : Model} {c d : ClassId} {p : PropertyId} {cs ds : List ClassId}

namespace Relabelled

theorem refl (m : Model) (cs : List ClassId) : m.Relabelled m cs :=
  ⟨rfl, rfl, fun _ => ⟨_, _, rfl⟩, fun _ _ => rfl, fun _ => ⟨_, rfl⟩, fun _ _ => rfl⟩

/-- Only classes and properties count. -/
theorem of_eq (hc : m'.classes = m.classes) (hp : m'.properties = m.properties) :
    m.Relabelled m' cs := by
  have hd (d) : m'.decl d = m.decl d := by rw [Model.decl, hc, Model.decl]
  have hq (p) : m'.prop p = m.prop p := by rw [Model.prop, hp, Model.prop]
  exact ⟨by rw [hc], by rw [hp], fun d => ⟨_, _, hd d⟩, fun d _ => hd d, fun p => ⟨_, hq p⟩,
    fun p _ => hq p⟩

theorem mono (h : m.Relabelled m' cs) (hs : cs ⊆ ds) : m.Relabelled m' ds :=
  { h with
    decl_eq := fun d hd => h.decl_eq d fun hc => hd (hs hc)
    prop_eq := fun p hp => h.prop_eq p fun c hc => hp c (hs hc) }

theorem trans (h : m.Relabelled m' cs) (h' : m'.Relabelled m'' cs) : m.Relabelled m'' cs where
  size := h'.size.trans h.size
  size_properties := h'.size_properties.trans h.size_properties
  decl d := by
    obtain ⟨_, _, hd⟩ := h.decl d
    obtain ⟨a, i, hd'⟩ := h'.decl d
    exact ⟨a, i, by rw [hd', hd]⟩
  decl_eq d hd := (h'.decl_eq d hd).trans (h.decl_eq d hd)
  prop p := by
    obtain ⟨_, hp⟩ := h.prop p
    obtain ⟨i, hp'⟩ := h'.prop p
    exact ⟨i, by rw [hp', hp]⟩
  prop_eq p hp := by
    have hq := h.prop_eq p hp
    rw [h'.prop_eq p (by rwa [hq]), hq]

theorem linked (h : m.Relabelled m' cs) (hm : m.Linked) : m'.Linked := by
  refine hm.congr (fun d => ?_) (fun d => ?_) fun p => ?_
  · obtain ⟨_, _, hd⟩ := h.decl d
    rw [hd]
    exact ⟨rfl, rfl⟩
  · obtain ⟨_, _, hd⟩ := h.decl d
    rw [hd]
  · obtain ⟨_, hp⟩ := h.prop p
    rw [hp]

theorem parent_eq (h : m.Relabelled m' cs) (d : ClassId) :
    (m'.decl d).parent = (m.decl d).parent ∧ (m'.decl d).package = (m.decl d).package := by
  obtain ⟨_, _, hd⟩ := h.decl d
  rw [hd]
  exact ⟨rfl, rfl⟩

/-- Renaming moves no class to another place of the walk. -/
theorem walk_eq (h : m.Relabelled m' cs) : m'.walk = m.walk :=
  walk_congr h.size fun c => (h.parent_eq c).1

theorem subtree_eq (h : m.Relabelled m' cs) (c : ClassId) : m'.subtree c = m.subtree c :=
  subtree_congr h.size (fun c => (h.parent_eq c).1) c

theorem fields_eq (h : m.Relabelled m' cs) (c : ClassId) : m'.fields c = m.fields c := by
  obtain ⟨_, _, hd⟩ := h.decl c
  rw [fields, fields, hd]
  refine List.map_congr_left fun p _ => ?_
  obtain ⟨_, hp⟩ := h.prop p
  rw [hp]

theorem walkProperties_eq (h : m.Relabelled m' cs) : m'.walkProperties = m.walkProperties := by
  rw [walkProperties, walkProperties, h.walk_eq]
  congr 1
  funext d
  obtain ⟨_, _, hd⟩ := h.decl d
  rw [hd]

theorem qualifiedName_eq (h : m.Relabelled m' cs) {done : List ClassId}
    (hdone : ∀ d ∈ done, d ∉ cs)
    (up : ∀ {c d}, d ∈ done → (m.decl d).parent = some c → c ∈ done) (hd : d ∈ done) :
    m'.qualifiedName d = m.qualifiedName d :=
  qualifiedName_congr_of (P := (· ∈ done)) (fun {c} hc => ⟨(h.parent_eq c).1, (h.parent_eq c).2, by
    rw [h.decl_eq c (hdone c hc)]⟩) up hd

theorem localName_of_notMem (h : m.Relabelled m' cs) (hd : ∀ c ∈ cs, d ∉ m.subtree c) :
    m'.localName d = m.localName d := by
  generalize hi : d.index = i
  induction i using Nat.strongRecOn generalizing d with
  | ind i ih =>
    have hdecl := h.decl_eq d fun hc => hd d hc (mem_subtree_self m d)
    rw [localName, localName, hdecl]
    cases hp : (m.decl d).parent with
    | none => rfl
    | some b =>
      dsimp only
      split
      · next hlt =>
        have hk := mem_children.mpr ⟨lt_of_parent hp, hp, hlt⟩
        rw [ih b.index (hi ▸ hlt)
          (fun c hc hb => hd c hc (mem_subtree_of_mem_children hk hb)) rfl]
      · rfl

theorem qualifiedName_of_notMem (h : m.Relabelled m' cs) (hd : ∀ c ∈ cs, d ∉ m.subtree c) :
    m'.qualifiedName d = m.qualifiedName d := by
  rw [qualifiedName, qualifiedName, h.localName_of_notMem hd, (h.parent_eq d).2]

end Relabelled

theorem relabelled_modifyClass {f : ClassDecl → ClassDecl}
    (hf : ∀ e, ∃ name i, f e = { e with name := name, implementation := i }) :
    m.Relabelled (m.modifyClass c f) [c] where
  size := size_modifyClass f
  size_properties := rfl
  decl d := by
    rcases decl_modifyClass_or f d with h | h
    · exact ⟨_, _, h⟩
    · obtain ⟨a, i, hf⟩ := hf (m.decl d)
      exact ⟨a, i, by rw [h, hf]⟩
  decl_eq d hd := decl_modifyClass_of_ne (by simpa using hd) m f
  prop p := ⟨_, rfl⟩
  prop_eq _ _ := rfl

theorem relabelled_modifyProperty (hp : (m.prop p).reference = some c) (i : Option String) :
    m.Relabelled (m.modifyProperty p fun q => { q with implementationType := i }) [c] where
  size := rfl
  size_properties := size_modifyProperty _
  decl _ := ⟨_, _, rfl⟩
  decl_eq _ _ := rfl
  prop q := by
    rcases prop_modifyProperty_or (m := m) (p := p)
      (fun q => { q with implementationType := i }) q with h | ⟨-, h⟩
    · exact ⟨_, h⟩
    · exact ⟨i, h⟩
  prop_eq q hq := by
    rcases prop_modifyProperty_or (m := m) (p := p)
      (fun q => { q with implementationType := i }) q with h | ⟨rfl, -⟩
    · exact h
    · exact absurd hp (hq c (List.mem_singleton_self c))

theorem relabelled_setImplementation (m : Model) (c : ClassId) (i : String) :
    m.Relabelled (m.setImplementation c i) [c] := by
  unfold setImplementation
  refine .trans ?_ (relabelled_modifyClass fun e => ⟨_, _, rfl⟩)
  generalize m.walkProperties = ps
  induction ps generalizing m with
  | nil => exact .refl m _
  | cons p ps ih =>
    rw [List.foldl_cons]
    refine .trans ?_ (ih _)
    split
    · next hp => exact relabelled_modifyProperty hp _
    · exact .refl m _

theorem relabelled_followEpisode (m : Model) (old new : String) (cs : List ClassId) :
    m.Relabelled (m.followEpisode old new) cs := by
  unfold followEpisode
  split
  · exact .refl m cs
  · split
    · exact .refl m cs
    · split <;> exact .of_eq rfl rfl

theorem relabelled_followFactory (m : Model) (c : ClassId) (old new : String) (cs : List ClassId) :
    m.Relabelled (m.followFactory c old new) cs := by
  unfold followFactory
  dsimp only
  split
  · exact .refl m cs
  · split
    · exact .of_eq rfl rfl
    · exact .refl m cs

def follow (m : Model) (e : ClassId × String) : Model :=
  (m.followEpisode e.2 (m.qualifiedName e.1)).followFactory e.1 e.2 (m.qualifiedName e.1)

/-- A model in which a class and its implementation have another name, before anything follows. -/
def relabel (m : Model) (c : ClassId) (name : String) : Model :=
  let m' := m.modifyClass c fun d => { d with name := name }
  match (m'.decl c).implementation.bind (renamedImplementation? (m.decl c).name name) with
  | some i => m'.setImplementation c i
  | none => m'

theorem renameClass_eq (m : Model) (c : ClassId) (name : String) : m.renameClass c name =
    ((m.subtree c).map fun k => (k, m.qualifiedName k)).foldl follow (m.relabel c name) := rfl

theorem relabelled_follow (m : Model) (before : List (ClassId × String)) (cs : List ClassId) :
    m.Relabelled (before.foldl follow m) cs := by
  induction before generalizing m with
  | nil => exact .refl m cs
  | cons e before ih =>
    exact ((relabelled_followEpisode m _ _ cs).trans (relabelled_followFactory _ _ _ _ cs)).trans
      (ih _)

/-- A renaming relabels one class. -/
theorem relabelled_renameClass (m : Model) (c : ClassId) (name : String) :
    m.Relabelled (m.renameClass c name) [c] := by
  rw [renameClass_eq]
  refine .trans ?_ (relabelled_follow _ _ _)
  have hn : m.Relabelled (m.modifyClass c fun d => { d with name := name }) [c] :=
    relabelled_modifyClass fun e => ⟨_, _, rfl⟩
  unfold relabel
  dsimp only
  split
  · exact hn.trans (relabelled_setImplementation _ _ _)
  · exact hn

theorem decl_renameClass (m : Model) (c d : ClassId) (name : String) :
    (m.renameClass c name).decl d = (m.relabel c name).decl d := by
  rw [renameClass_eq, (relabelled_follow _ _ []).decl_eq d List.not_mem_nil]

theorem prop_renameClass (m : Model) (c : ClassId) (p : PropertyId) (name : String) :
    (m.renameClass c name).prop p = (m.relabel c name).prop p := by
  rw [renameClass_eq, (relabelled_follow _ _ []).prop_eq p (by simp)]

theorem decl_foldl_setType (ps : List PropertyId) (m : Model) (c d : ClassId) (i : String) :
    (ps.foldl (fun m p => if (m.prop p).reference = some c then
      m.modifyProperty p fun q => { q with implementationType := some i } else m) m).decl d =
      m.decl d := by
  induction ps generalizing m with
  | nil => rfl
  | cons p ps ih =>
    rw [List.foldl_cons, ih]
    split <;> rfl

theorem prop_foldl_setType (ps : List PropertyId) (m : Model) (c : ClassId) (q : PropertyId)
    (i : String) : (ps.foldl (fun m p => if (m.prop p).reference = some c then
      m.modifyProperty p fun q => { q with implementationType := some i } else m) m).prop q =
      if q ∈ ps ∧ (m.prop q).reference = some c then
        { m.prop q with implementationType := some i }
      else m.prop q := by
  induction ps generalizing m with
  | nil => simp
  | cons p ps ih =>
    rw [List.foldl_cons, ih]
    by_cases hp : (m.prop p).reference = some c
    · have hlt : p.index < m.properties.size := by
        by_contra hn
        rw [prop_of_size_le (Nat.le_of_not_lt hn)] at hp
        cases hp
      rw [if_pos hp, prop_modifyProperty hlt]
      by_cases hq : q = p
      · subst hq
        simp [hp]
      · simp [hq]
    · rw [if_neg hp]
      by_cases hq : q = p
      · subst hq
        simp [hp]
      · simp [hq]

theorem prop_setImplementation (m : Model) (c : ClassId) (q : PropertyId) (i : String) :
    (m.setImplementation c i).prop q =
      if q ∈ m.walkProperties ∧ (m.prop q).reference = some c then
        { m.prop q with implementationType := some i }
      else m.prop q := prop_foldl_setType m.walkProperties m c q i

theorem decl_setImplementation_or (m : Model) (c d : ClassId) (i : String) :
    (m.setImplementation c i).decl d = m.decl d ∨
      (m.setImplementation c i).decl d = { m.decl d with implementation := some i } := by
  unfold setImplementation
  dsimp only
  rcases decl_modifyClass_or (m := m.walkProperties.foldl (fun m p =>
      if (m.prop p).reference = some c then
        m.modifyProperty p fun q => { q with implementationType := some i }
      else m) m) (c := c) (fun e => { e with implementation := some i }) d with h | h
  · left
    rw [h, decl_foldl_setType]
  · right
    rw [h, decl_foldl_setType]

theorem implementation_setImplementation (hc : c.index < m.classes.size) (i : String) :
    ((m.setImplementation c i).decl c).implementation = some i := by
  have hs : c.index < (m.walkProperties.foldl (fun m p =>
      if (m.prop p).reference = some c then
        m.modifyProperty p fun q => { q with implementationType := some i }
      else m) m).classes.size := by
    have := (relabelled_setImplementation m c i).size
    unfold setImplementation at this
    rw [size_modifyClass] at this
    rwa [this]
  unfold setImplementation
  dsimp only
  rw [decl_modifyClass hs, if_pos rfl]

theorem name_setImplementation (m : Model) (c d : ClassId) (i : String) :
    ((m.setImplementation c i).decl d).name = (m.decl d).name := by
  rcases decl_setImplementation_or m c d i with h | h <;> rw [h]

theorem name_renameClass (hc : c.index < m.classes.size) (name : String) :
    ((m.renameClass c name).decl c).name = name := by
  have hn : ((m.modifyClass c fun d => { d with name := name }).decl c).name = name := by
    rw [decl_modifyClass hc, if_pos rfl]
  rw [decl_renameClass]
  unfold relabel
  dsimp only
  split
  · rw [name_setImplementation, hn]
  · exact hn

end Enfold.Model
