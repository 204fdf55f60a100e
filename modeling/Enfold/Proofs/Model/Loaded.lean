import Enfold.Proofs.Model.Nodes
import Enfold.Proofs.Model.Typed

/-! # Models of descriptions

The links to bases are made last and change nothing else, so the classes of a model are what the
entries of its description say.
-/

namespace Enfold

open Description

namespace Model

variable {m m' : Model} {c d : ClassId} {p : PropertyId}

/-! ### Links to bases -/

/-- The two models agree on everything but the bases of classes. -/
structure Rebased (m m' : Model) : Prop where
  size_eq : m'.classes.size = m.classes.size
  properties_eq : m'.properties = m.properties
  decl_eq : ∀ c, ∃ b, m'.decl c = { m.decl c with base := b }

namespace Rebased

theorem refl (m : Model) : m.Rebased m := ⟨rfl, rfl, fun _ => ⟨_, rfl⟩⟩

theorem trans {m'' : Model} (h : m.Rebased m') (h' : m'.Rebased m'') : m.Rebased m'' where
  size_eq := h'.size_eq.trans h.size_eq
  properties_eq := h'.properties_eq.trans h.properties_eq
  decl_eq c := by
    obtain ⟨b, hb⟩ := h.decl_eq c
    obtain ⟨b', hb'⟩ := h'.decl_eq c
    exact ⟨b', by rw [hb', hb]⟩

theorem parent_eq (h : m.Rebased m') (c : ClassId) : (m'.decl c).parent = (m.decl c).parent := by
  obtain ⟨b, hb⟩ := h.decl_eq c
  rw [hb]

theorem walk_eq (h : m.Rebased m') : m'.walk = m.walk := walk_congr h.size_eq h.parent_eq

theorem prop_eq (h : m.Rebased m') (p : PropertyId) : m'.prop p = m.prop p := by
  rw [prop, prop, h.properties_eq]

theorem qualifiedName_eq (h : m.Rebased m') (c : ClassId) :
    m'.qualifiedName c = m.qualifiedName c :=
  qualifiedName_congr (fun c => by obtain ⟨b, hb⟩ := h.decl_eq c; simp [hb]) c

theorem findClass?_eq (h : m.Rebased m') (name : String) :
    m'.findClass? name = m.findClass? name := by
  simp only [findClass?, h.walk_eq, h.qualifiedName_eq]

end Rebased

theorem rebased_modifyClass (m : Model) (c : ClassId) (b : Option ClassId) :
    m.Rebased (m.modifyClass c fun d => { d with base := b }) where
  size_eq := size_modifyClass _
  properties_eq := rfl
  decl_eq d := by
    rcases m.decl_modifyClass_or (c := c) (fun d => { d with base := b }) d with h | h
    · exact ⟨_, h⟩
    · exact ⟨_, h⟩

def target? (m : Model) (base : Value) : Option ClassId := base.asText?.bind m.findClass?

theorem Rebased.target?_eq (h : m.Rebased m') (base : Value) : m'.target? base = m.target? base := by
  rw [target?, target?, funext h.findClass?_eq]

theorem linkBase_eq_ok {link : ClassId × Value} :
    m.linkBase link = .ok m' ↔ ∃ b, m.target? link.2 = some b ∧
      m' = m.modifyClass link.1 fun d => { d with base := some b } := by
  have htarget : link.2.asText?.bind m.findClass? = m.target? link.2 := rfl
  rw [linkBase, htarget]
  cases m.target? link.2 with
  | none => simp
  | some b => simp [eq_comm]

theorem exists_foldlM_linkBase {bases : List (ClassId × Value)} :
    (∃ m', bases.foldlM linkBase m = .ok m') ↔ ∀ q ∈ bases, (m.target? q.2).isSome := by
  induction bases generalizing m with
  | nil => simp [pure, Except.pure]
  | cons q bases ih =>
    simp only [List.foldlM_cons, exceptBind_eq_ok, List.forall_mem_cons]
    constructor
    · rintro ⟨m', m₁, h₁, h⟩
      obtain ⟨b, hb, rfl⟩ := linkBase_eq_ok.mp h₁
      refine ⟨by simp [hb], fun q' hq' => ?_⟩
      rw [← (rebased_modifyClass m q.1 (some b)).target?_eq]
      exact ih.mp ⟨m', h⟩ q' hq'
    · rintro ⟨hq, hbases⟩
      obtain ⟨b, hb⟩ := Option.isSome_iff_exists.mp hq
      obtain ⟨m', h⟩ := ih.mpr fun q' hq' => by
        rw [(rebased_modifyClass m q.1 (some b)).target?_eq]
        exact hbases q' hq'
      exact ⟨m', _, linkBase_eq_ok.mpr ⟨b, hb, rfl⟩, h⟩

theorem linked_foldlM {bases : List (ClassId × Value)} (hn : (bases.map Prod.fst).Nodup)
    (hlt : ∀ q ∈ bases, q.1.index < m.classes.size) (h : bases.foldlM linkBase m = .ok m') :
    m.Rebased m' ∧ (∀ c, c ∉ bases.map Prod.fst → (m'.decl c).base = (m.decl c).base) ∧
      ∀ q ∈ bases, (m'.decl q.1).base = m.target? q.2 := by
  induction bases generalizing m with
  | nil => cases h; exact ⟨.refl _, fun _ _ => rfl, by simp⟩
  | cons q bases ih =>
    obtain ⟨hq, hn⟩ := List.nodup_cons.mp hn
    rw [List.foldlM_cons] at h
    obtain ⟨m₁, h₁, h⟩ := exceptBind_eq_ok.mp h
    obtain ⟨b, hb, rfl⟩ := linkBase_eq_ok.mp h₁
    have hstep := rebased_modifyClass m q.1 (some b)
    obtain ⟨hrest, hout, hin⟩ := ih hn (fun q' hq' => by
      rw [hstep.size_eq]
      exact hlt q' (List.mem_cons_of_mem _ hq')) h
    refine ⟨hstep.trans hrest, fun c hc => ?_, fun q' hq' => ?_⟩
    · obtain ⟨hne, hc⟩ := List.ne_and_not_mem_of_not_mem_cons hc
      rw [hout c hc, decl_modifyClass_of_ne hne]
    · rcases List.mem_cons.mp hq' with rfl | hq'
      · rw [hout _ hq, decl_modifyClass_self (hlt _ List.mem_cons_self), hb]
      · rw [hin q' hq', hstep.target?_eq]

end Model

/-! ### What a description says -/

namespace Description

def baseName? (entry : Value) : Option String :=
  ((entry.member? "base").bind Value.asText?).filter (· ≠ "")

/-- The base of an entry is no class of the description. -/
def lacksBase (v entry : Value) : Bool :=
  (baseName? entry).any fun name => (listed v).all fun l => l.qualifiedName ≠ name

theorem lacksBase_iff {v entry : Value} : lacksBase v entry ↔
    ∃ name, baseName? entry = some name ∧ ∀ l ∈ listed v, l.qualifiedName ≠ name := by
  simp [lacksBase, Option.any_eq_true]

theorem baseName?_eq_some {entry : Value} {name : String} :
    baseName? entry = some name ↔ baseMember entry = .text name ∧ name ≠ "" := by
  unfold baseName? baseMember
  cases entry.member? "base" with
  | none => simp
  | some v =>
    cases v with
    | text s => by_cases hs : s = "" <;> simp [Value.asText?, Option.filter_some, hs]; grind
    | null | bool | int | decimal | list | object => simp [Value.asText?]

theorem isTruthy_baseMember {entry : Value} (h : isTypedClass entry) :
    (baseMember entry).isTruthy ↔ ∃ name, baseName? entry = some name := by
  cases entry with
  | object ms =>
    have hb : memberIs isTextOrNull "base" ms := by
      simp only [isTypedClass, Bool.and_eq_true] at h
      exact h.1.1.1.2
    have hbase : isTextOrNull (baseMember (.object ms)) := of_memberIs .null hb rfl
    simp only [baseName?_eq_some]
    cases hv : baseMember (.object ms) with
    | text s => simp [Value.isTruthy]
    | null => simp [Value.isTruthy]
    | bool | int | decimal | list | object => rw [hv] at hbase; cases hbase
  | null | bool | int | decimal | text | list => cases h

def propertiesOf : Value → List Value
  | .object ms => propertyValues ms
  | _ => []

end Description

namespace Model

variable {m m' : Model} {c d : ClassId} {p : PropertyId}

/-- A class with the properties of an entry, and with the first class of its base name. -/
structure Reproduces (m : Model) (l : Listing) (c : ClassId) : Prop where
  qualifiedName_eq : m.qualifiedName c = l.qualifiedName
  decl_eq : ∃ e, singleClass l.entry = .ok e ∧ m.decl c = { e.decl l.package with
    package := l.package, parent := l.parent.map ClassId.mk,
    properties := (m.decl c).properties, base := (m.decl c).base }
  properties : List.Forall₂ (fun v p => ∃ x, property (nameOf l.entry) v = .ok x ∧
    m.prop p = { x with owner := some c }) (propertiesOf l.entry) (m.decl c).properties
  base_eq : (m.decl c).base = (baseName? l.entry).bind m.findClass?
  base_isSome : (m.decl c).base.isSome = (baseName? l.entry).isSome

theorem Placed.qualifiedName_eq {l : Listing} (h : m.Placed l c) :
    m.qualifiedName c = l.qualifiedName := by
  obtain ⟨_, _, _, hdecl, _⟩ := h.decl_eq
  rw [qualifiedName, h.localName_eq, hdecl]
  rfl

theorem inOrder_empty (e : Option Episode) : ({ episode := e } : Model).InOrder := by
  intro b d h
  rw [decl_of_size_le (Nat.zero_le _)] at h
  cases h

theorem grown_ofValue {v : Value} {r : Raw.Description} {x : Description}
    (hr : Raw.Description.ofValue v = .ok r) (hx : r.lettered? = some x) :
    Grown ⟨{ episode := x.episode.map Episode.ofList }, []⟩
      (Draft.addTrees x.package none ⟨{ episode := x.episode.map Episode.ofList }, []⟩ x.classes)
      (listed v) := by
  obtain ⟨-, hpackage, hts, hrs⟩ := package_eq_of_lettered hr hx
  exact (grown_trees (s := .top (packageOf v)) x.package hrs hts (described_empty _)
    (inOrder_empty _) ⟨rfl, hpackage⟩).1

section Final

variable {d₀ d : Draft} {ls : List Listing} {v : Value} {x : Description} {l : Listing} {i : Nat}

theorem Grown.placed_of_getElem? (h : Grown d₀ d ls) (h₀ : d₀.model.classes.size = 0)
    (hl : ls[i]? = some l) : d.model.Placed l ⟨i⟩ :=
  h.placed (l, i) (by rw [h₀]; exact List.mk_mem_zipIdx_iff_getElem?.mpr hl)

/-- A class is found exactly if some entry describes one of that name. -/
theorem Grown.findClass?_isSome (h : Grown d₀ d ls) (h₀ : d₀.model.classes.size = 0)
    (name : String) : (d.model.findClass? name).isSome ↔ ∃ l ∈ ls, l.qualifiedName = name := by
  have hsize : d.model.classes.size = ls.length := by rw [h.size_eq, h₀, Nat.zero_add]
  simp only [findClass?, List.find?_isSome, decide_eq_true_eq, mem_walk h.described.toLinked]
  constructor
  · rintro ⟨c, hlt, hc⟩
    have hl : ls[c.index]? = some (ls.get ⟨c.index, hsize ▸ hlt⟩) := List.getElem?_eq_getElem _
    exact ⟨_, List.mem_of_getElem? hl, (h.placed_of_getElem? h₀ hl).qualifiedName_eq.symm.trans hc⟩
  · rintro ⟨l, hl, hname⟩
    obtain ⟨i, hi⟩ := List.mem_iff_getElem?.mp hl
    obtain ⟨hlt, -⟩ := List.getElem?_eq_some_iff.mp hi
    exact ⟨⟨i⟩, hsize ▸ hlt, (h.placed_of_getElem? h₀ hi).qualifiedName_eq.trans hname⟩

/-- The links of a description: one for each entry that asks for a base. -/
theorem Grown.mem_bases (h : Grown d₀ d ls) (h₀ : d₀.model.classes.size = 0) (hb : d₀.bases = [])
    {q : ClassId × Value} : q ∈ d.bases ↔ ∃ i l, ls[i]? = some l ∧ (baseMember l.entry).isTruthy ∧
      q = (⟨i⟩, baseMember l.entry) := by
  rw [h.bases_eq, hb, h₀, List.nil_append, List.mem_filterMap]
  unfold baseLink
  constructor
  · rintro ⟨⟨l, i⟩, hq, hlink⟩
    split at hlink
    · next htruthy =>
      cases hlink
      exact ⟨i, l, List.mk_mem_zipIdx_iff_getElem?.mp hq, htruthy, rfl⟩
    · cases hlink
  · rintro ⟨i, l, hl, htruthy, rfl⟩
    exact ⟨(l, i), List.mk_mem_zipIdx_iff_getElem?.mpr hl, if_pos htruthy⟩

theorem sublist_baseLinks (ls : List Listing) (n : Nat) :
    (((ls.zipIdx n).filterMap baseLink).map Prod.fst).Sublist
      ((ls.zipIdx n).map fun q => ⟨q.2⟩) := by
  induction ls generalizing n with
  | nil => exact List.Sublist.refl _
  | cons l ls ih =>
    rw [List.zipIdx_cons, List.filterMap_cons, List.map_cons]
    unfold baseLink
    dsimp only
    split
    · exact (ih (n + 1)).cons _
    · next q hq =>
      split at hq
      · cases hq; exact (ih (n + 1)).cons_cons _
      · cases hq

theorem nodup_baseLinks (ls : List Listing) (n : Nat) :
    (((ls.zipIdx n).filterMap baseLink).map Prod.fst).Nodup := by
  refine (sublist_baseLinks ls n).nodup ?_
  have hmap : (ls.zipIdx n).map (fun q => ClassId.mk q.2) =
      ((ls.zipIdx n).map Prod.snd).map ClassId.mk := by rw [List.map_map]; rfl
  rw [hmap, List.zipIdx_map_snd]
  exact (List.nodup_range').map fun _ _ h => congrArg ClassId.index h

theorem Placed.properties (h : m.Placed l c) (ht : isTypedClass l.entry) :
    List.Forall₂ (fun v p => ∃ x, property (nameOf l.entry) v = .ok x ∧
      m.prop p = { x with owner := some c }) (propertiesOf l.entry) (m.decl c).properties := by
  obtain ⟨e, ps, he, hdecl, hps⟩ := h.decl_eq
  obtain ⟨parent, package, localName, entry⟩ := l
  cases entry with
  | object ms =>
    obtain ⟨hname, -, -, hproperties⟩ := of_singleClass_eq_ok he
    rw [hdecl, ← hname]
    exact forall₂_comp hproperties hps
  | null | bool | int | decimal | text | list => cases ht

theorem Grown.links (h : Grown d₀ d ls) (h₀ : d₀.model.classes.size = 0) (hb : d₀.bases = [])
    (hm : d.bases.foldlM linkBase d.model = .ok m) :
    d.model.Rebased m ∧ (∀ c, c ∉ d.bases.map Prod.fst → (m.decl c).base = (d.model.decl c).base) ∧
      ∀ q ∈ d.bases, (m.decl q.1).base = d.model.target? q.2 := by
  have hnodup : (d.bases.map Prod.fst).Nodup := by
    rw [h.bases_eq, hb]
    exact nodup_baseLinks ls _
  refine linked_foldlM hnodup (fun q hq => ?_) hm
  obtain ⟨i, l, hl, -, rfl⟩ := (h.mem_bases h₀ hb).mp hq
  rw [h.size_eq, h₀, Nat.zero_add]
  exact (List.getElem?_eq_some_iff.mp hl).1

theorem Grown.base_eq (h : Grown d₀ d ls) (h₀ : d₀.model.classes.size = 0) (hb : d₀.bases = [])
    (ht : ∀ l ∈ ls, isTypedClass l.entry) (hm : d.bases.foldlM linkBase d.model = .ok m)
    (hl : ls[i]? = some l) : (m.decl ⟨i⟩).base = (baseName? l.entry).bind m.findClass? ∧
      (m.decl ⟨i⟩).base.isSome = (baseName? l.entry).isSome := by
  have hmem {q} := h.mem_bases h₀ hb (q := q)
  have htruthy {k} (hk : k ∈ ls) := isTruthy_baseMember (ht k hk)
  obtain ⟨hrebased, hout, hin⟩ := h.links h₀ hb hm
  cases hname : baseName? l.entry with
  | some name =>
    have hbase := (baseName?_eq_some.mp hname).1
    have hq : ((⟨i⟩, .text name) : ClassId × Value) ∈ d.bases :=
      hmem.mpr ⟨i, l, hl, (htruthy (List.mem_of_getElem? hl)).mpr ⟨name, hname⟩, by rw [hbase]⟩
    rw [hin _ hq]
    exact ⟨(hrebased.findClass?_eq name).symm, exists_foldlM_linkBase.mp ⟨m, hm⟩ _ hq⟩
  | none =>
    -- Another link of this class would be that of its entry, which asks for no base.
    have hnot : (⟨i⟩ : ClassId) ∉ d.bases.map Prod.fst := by
      intro hc
      obtain ⟨q, hq, hqi⟩ := List.mem_map.mp hc
      obtain ⟨j, k, hk, hbase, rfl⟩ := hmem.mp hq
      cases hqi
      rw [hl] at hk
      cases hk
      obtain ⟨name, hsome⟩ := (htruthy (List.mem_of_getElem? hl)).mp hbase
      rw [hname] at hsome
      cases hsome
    obtain ⟨e, ps, -, hdecl, -⟩ := (h.placed_of_getElem? h₀ hl).decl_eq
    rw [hout _ hnot, hdecl]
    exact ⟨rfl, rfl⟩

/-- Once all links are made, each class is what its entry says. -/
theorem Grown.reproduces (h : Grown d₀ d ls) (h₀ : d₀.model.classes.size = 0) (hb : d₀.bases = [])
    (ht : ∀ l ∈ ls, isTypedClass l.entry) (hm : d.bases.foldlM linkBase d.model = .ok m)
    (hl : ls[i]? = some l) : m.Reproduces l ⟨i⟩ := by
  have hplaced := h.placed_of_getElem? h₀ hl
  have hrebased := (h.links h₀ hb hm).1
  obtain ⟨hbase, hsome⟩ := h.base_eq h₀ hb ht hm hl
  obtain ⟨b, hdeclb⟩ := hrebased.decl_eq ⟨i⟩
  obtain ⟨e, ps, he, hdecl, -⟩ := hplaced.decl_eq
  refine ⟨(hrebased.qualifiedName_eq _).trans hplaced.qualifiedName_eq, ⟨e, he, ?_⟩, ?_, hbase, hsome⟩
  · rw [hdeclb, hdecl]
  · have hprops := hplaced.properties (ht l (List.mem_of_getElem? hl))
    rw [hdeclb]
    refine hprops.imp fun v p hread => ?_
    obtain ⟨x, hx, hp⟩ := hread
    exact ⟨x, hx, (hrebased.prop_eq p).trans hp⟩

end Final

variable {v : Value}

theorem exists_ofDescription_iff {r : Raw.Description} {x : Description}
    (hr : Raw.Description.ofValue v = .ok r) (hx : r.lettered? = some x) :
    (∃ m, ofDescription x = .ok m) ↔ ∀ l ∈ listed v, (baseMember l.entry).isTruthy →
      ∃ k ∈ listed v, baseMember l.entry = .text k.qualifiedName := by
  have hg := grown_ofValue hr hx
  have hmem {q} := hg.mem_bases rfl rfl (q := q)
  have htarget (base : Value) : (Model.target? (Draft.addTrees x.package none
      ⟨{ episode := x.episode.map Episode.ofList }, []⟩ x.classes).model base).isSome ↔
        ∃ k ∈ listed v, base = .text k.qualifiedName := by
    unfold target?
    cases base with
    | text s =>
      rw [Value.asText?, Option.bind_some, hg.findClass?_isSome rfl s]
      exact exists_congr fun k => and_congr_right fun _ => by rw [Value.text.injEq, eq_comm]
    | null | bool | int | decimal | list | object => simp [Value.asText?]
  rw [ofDescription, exists_foldlM_linkBase]
  constructor
  · intro hall l hl htruthy
    obtain ⟨i, hi⟩ := List.mem_iff_getElem?.mp hl
    exact (htarget _).mp (hall _ (hmem.mpr ⟨i, l, hi, htruthy, rfl⟩))
  · intro hall q hq
    obtain ⟨i, l, hi, htruthy, rfl⟩ := hmem.mp hq
    exact (htarget _).mpr (hall l (List.mem_of_getElem? hi) htruthy)

theorem exists_ofDescription_iff_ofValue {r : Raw.Description} {x : Description}
    (hr : Raw.Description.ofValue v = .ok r) (hx : r.lettered? = some x) :
    (∃ m, ofDescription x = .ok m) ↔ ∃ g, Raw.Graph.ofValue v = .ok g := by
  rw [exists_ofDescription_iff hr hx, ← exists_basePlaces (calls_nodes hr hx),
    Raw.Graph.ofValue_of_ok hr]
  simp only [exceptMap_eq_ok]
  constructor
  · rintro ⟨bases, h⟩
    exact ⟨_, bases, h, rfl⟩
  · rintro ⟨_, bases, h, -⟩
    exact ⟨bases, h⟩

/-- A model is a raw graph in which names, packages and types are texts. -/
theorem ofValue_of_raw (v : Value) :
    ((∃ m, ofValue v = .ok m) ↔ ∃ g, Raw.Graph.ofValue v = .ok g ∧ g.lettered?.isSome) ∧
      ∀ e, ofValue v = .error e → e = .unlettered ∨ Raw.Graph.ofValue v = .error e := by
  have hmodel {g : Raw.Graph} {d : Description} (hg : Raw.Graph.ofValue v = .ok g)
      (hd : g.lettered? = some d) : ∃ m, ofDescription d = .ok m := by
    have hr := Raw.Graph.description_of_ofValue hg
    exact (exists_ofDescription_iff_ofValue hr hd).mpr ⟨g, hg⟩
  refine ⟨⟨?_, ?_⟩, fun e he => ?_⟩
  · rintro ⟨m, hm⟩
    obtain ⟨g, hg, d, hd, -⟩ := ofValue_eq_ok.mp hm
    exact ⟨g, hg, by rw [hd]; rfl⟩
  · rintro ⟨g, hg, hlettered⟩
    obtain ⟨d, hd⟩ := Option.isSome_iff_exists.mp hlettered
    obtain ⟨m, hm⟩ := hmodel hg hd
    exact ⟨m, ofValue_eq_ok.mpr ⟨g, hg, d, hd, hm⟩⟩
  · rw [ofValue] at he
    cases hg : Raw.Graph.ofValue v with
    | error e' => rw [hg] at he; cases he; exact Or.inr rfl
    | ok g =>
      cases hd : g.lettered? with
      | none =>
        rw [hg] at he
        change (orUnlettered g.lettered?).bind ofDescription = .error e at he
        rw [hd] at he
        cases he
        exact Or.inl rfl
      | some d =>
        obtain ⟨m, hm⟩ := hmodel hg hd
        have hok := ofValue_eq_ok.mpr ⟨g, hg, d, hd, hm⟩
        rw [ofValue] at hok
        rw [hok] at he
        cases he

theorem not_lacksBase_iff {l : Listing} (h : isTypedClass l.entry) : ¬lacksBase v l.entry ↔
    ((baseMember l.entry).isTruthy → ∃ k ∈ listed v, baseMember l.entry = .text k.qualifiedName) := by
  rw [isTruthy_baseMember h, lacksBase_iff]
  constructor
  · rintro hnone ⟨name, hname⟩
    by_contra hlacks
    refine hnone ⟨name, hname, fun k hk hkname => hlacks ⟨k, hk, ?_⟩⟩
    rw [hkname]
    exact (baseName?_eq_some.mp hname).1
  · rintro hfound ⟨name, hname, hlacks⟩
    obtain ⟨k, hk, hbase⟩ := hfound ⟨name, hname⟩
    rw [(baseName?_eq_some.mp hname).1] at hbase
    exact hlacks k hk (Value.text.inj hbase).symm

theorem exists_ofValue_iff (h : isTyped v) : (∃ m, ofValue v = .ok m) ↔
    ∀ l ∈ listed v, isTitled l.entry ∧ ¬lacksBase v l.entry := by
  constructor
  · rintro ⟨m, hm⟩ l hl
    obtain ⟨g, hg, x, hx, hm⟩ := ofValue_eq_ok.mp hm
    have hr := Raw.Graph.description_of_ofValue hg
    exact ⟨(exists_description_iff h).mp ⟨_, hr⟩ l hl, (not_lacksBase_iff
      (isTypedClass_of_mem h hl)).mpr ((exists_ofDescription_iff hr hx).mp ⟨m, hm⟩ l hl)⟩
  · intro hall
    obtain ⟨r, hr⟩ := (exists_description_iff h).mpr fun l hl => (hall l hl).1
    obtain ⟨x, hx⟩ := exists_lettered h hr
    obtain ⟨m, hm⟩ := (exists_ofDescription_iff hr hx).mpr fun l hl =>
      (not_lacksBase_iff (isTypedClass_of_mem h hl)).mp (hall l hl).2
    obtain ⟨g, hg⟩ := (exists_ofDescription_iff_ofValue hr hx).mp ⟨m, hm⟩
    have hsame := hr.symm.trans (Raw.Graph.description_of_ofValue hg)
    exact ⟨m, ofValue_eq_ok.mpr ⟨g, hg, x, Except.ok.inj hsame ▸ hx, hm⟩⟩

theorem isReport_of_isTyped (h : isTyped v) {e : DescriptionError} (he : ofValue v = .error e) :
    e.isReport := by
  cases hg : Raw.Graph.ofValue v with
  | ok g =>
    obtain ⟨x, hx⟩ := exists_lettered h (Raw.Graph.description_of_ofValue hg)
    obtain ⟨m, hm⟩ := (ofValue_of_raw v).1.mpr ⟨g, hg, by rw [hx]; rfl⟩
    rw [hm] at he
    cases he
  | error e' =>
    rw [ofValue, hg] at he
    cases he
    cases hr : Raw.Description.ofValue v with
    | error e' =>
      rw [Raw.Graph.ofValue_of_error hr] at hg
      cases hg
      exact isReport_of_description h hr
    | ok r =>
      rcases Raw.Graph.ok_or_unknownBase hr with ⟨g, hok⟩ | ⟨base, name, herror⟩
      · rw [hok] at hg
        cases hg
      · rw [herror] at hg
        cases hg
        rfl

/-- A typed description is refused if something has no name, a kind is unknown, or a base is
missing. Otherwise the classes are those of the entries. -/
theorem ofValue_of_isTyped (h : isTyped v) :
    ((∃ e, ofValue v = .error e) ↔ ∃ l ∈ listed v, ¬isTitled l.entry ∨ lacksBase v l.entry) ∧
      (∀ e, ofValue v = .error e → e.isReport) ∧
      ∀ m, ofValue v = .ok m →
        m.walk = (List.range (listed v).length).map ClassId.mk ∧
        (∀ i l, (listed v)[i]? = some l → m.Reproduces l ⟨i⟩) ∧ m.Linked ∧
        ∀ k ∈ m.roots, ∀ c ∈ m.subtree k, (m.decl c).package = (m.decl k).package := by
  refine ⟨?_, fun e he => isReport_of_isTyped h he, fun m hm => ?_⟩
  · have hok := exists_ofValue_iff h
    constructor
    · rintro ⟨e, he⟩
      by_contra hnone
      push Not at hnone
      obtain ⟨m, hm⟩ := hok.mpr hnone
      rw [hm] at he
      cases he
    · rintro ⟨l, hl, hl'⟩
      cases hm : ofValue v with
      | error e => exact ⟨e, rfl⟩
      | ok m =>
        obtain ⟨htitled, hlacks⟩ := hok.mp ⟨m, hm⟩ l hl
        exact absurd hl' (by tauto)
  · have hlinked := (described_ofValue hm).toLinked
    have htyped (l) (hl : l ∈ listed v) := isTypedClass_of_mem h hl
    obtain ⟨g, hr, x, hx, hm⟩ := ofValue_eq_ok.mp hm
    have hg := grown_ofValue (Raw.Graph.description_of_ofValue hr) hx
    refine ⟨?_, fun i l hl => hg.reproduces rfl rfl htyped hm hl, hlinked, fun k hk c hc => ?_⟩
    · rw [(hg.links rfl rfl hm).1.walk_eq, InOrder.walk_eq hg.inOrder hg.described.toLinked,
        classIds, hg.size_eq]
      simp
    · exact (of_mem_subtree (P := fun d => (m.decl d).package = (m.decl c).package)
        (fun hp hd => (hlinked.package_eq hp).symm.trans hd) hc rfl).symm

/-- The first class extends one that is nested in the second. -/
def forwardBase : Value :=
  .object [("package", "shop"), ("classes", .list [
    .object [("name", "Order"), ("base", "shop.Item.Part"),
      ("properties", .list [.object [("name", "line"), ("repeated", .bool true)]])],
    .object [("name", "Item"),
      ("nested", .list [.object [("name", "Part"), ("package", "other")]])]])]

theorem walk_of_forwardBase :
    isTyped forwardBase ∧ ∃ m, ofValue forwardBase = .ok m ∧ m.walk = [⟨0⟩, ⟨1⟩, ⟨2⟩] ∧
      ∀ i l, (listed forwardBase)[i]? = some l → m.Reproduces l ⟨i⟩ := by
  have ht : isTyped forwardBase := by decide +kernel
  obtain ⟨herror, -, hok⟩ := ofValue_of_isTyped ht
  have hfine : ∀ l ∈ listed forwardBase,
      isTitled l.entry ∧ ¬lacksBase forwardBase l.entry := by decide +kernel
  refine ⟨ht, ?_⟩
  cases hm : ofValue forwardBase with
  | error e =>
    obtain ⟨l, hl, h⟩ := herror.mp ⟨e, hm⟩
    exact absurd (hfine l hl) (by tauto)
  | ok m =>
    obtain ⟨hwalk, hreproduces, -⟩ := hok m hm
    exact ⟨m, rfl, hwalk, hreproduces⟩

end Model
end Enfold
