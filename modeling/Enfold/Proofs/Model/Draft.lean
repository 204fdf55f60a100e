import Enfold.Proofs.Model.Built
import Enfold.Proofs.Model.Malformed
import Enfold.Proofs.Model.Order

/-! # Drafts of models

Adding the trees of a description adds the classes of its entries in the order in which they are
listed. A class stands in the place of its entry from when it comes in, since what is added later
comes behind it.
-/

namespace Enfold

open Description

namespace Description

open Raw

theorem property_eq_ok {owner : String} {v : Value} {y : Enfold.Property} :
    property owner v = .ok y ↔ ∃ p, Raw.property owner v = .ok p ∧ p.lettered? = some y := by
  rw [property, exceptBind_eq_ok]
  simp only [orUnlettered_eq_ok]

theorem singleClass_eq_ok {v : Value} {e : Enfold.ClassEntry} :
    singleClass v = .ok e ↔ ∃ x, Raw.singleClass v = .ok x ∧ x.lettered? = some e := by
  rw [singleClass, exceptBind_eq_ok]
  simp only [orUnlettered_eq_ok]

theorem eq_asText?_of_textOrNull? {v : Value} {t : Option String} (h : v.textOrNull? = some t) :
    t = v.asText? := by
  cases v with
  | null | text => cases h; rfl
  | bool | int | decimal | list | object => cases h

theorem eq_map_of_mapM_textOrNull? {package : Option Value} {t : Option (Option String)}
    (h : package.mapM Value.textOrNull? = some t) : t = package.map Value.asText? := by
  cases package with
  | none => cases h; rfl
  | some v =>
    obtain ⟨t, ht, rfl⟩ := Option.map_eq_some_iff.mp (by simpa using h)
    rw [eq_asText?_of_textOrNull? ht, Option.map_some]

/-- What an entry for a class says about the class itself. -/
theorem classEntry_eq_ok {ms : Members} {x : Raw.ClassEntry} (h : classEntry ms = .ok x) :
    Assoc.get? "name" ms = some x.name ∧ x.package = Assoc.get? "package" ms ∧
      x.base = member "base" ms ∧ List.Forall₂ (fun v p => Raw.property x.name.plain v = .ok p)
        (propertyValues ms) x.properties := by
  obtain ⟨name, hname, h⟩ := exceptBind_eq_ok.mp h
  obtain ⟨listed, hlisted, h⟩ := exceptBind_eq_ok.mp h
  obtain ⟨properties, hproperties, h⟩ := exceptBind_eq_ok.mp h
  cases h
  refine ⟨?_, rfl, rfl, ?_⟩
  · unfold nameMember at hname
    split at hname
    · next v hv => cases hname; exact hv
    · cases hname
  · rw [propertyValues_eq hlisted]
    exact mapM_eq_ok.mp hproperties

theorem of_singleClass_eq_ok {ms : Members} {e : Enfold.ClassEntry}
    (h : singleClass (.object ms) = .ok e) :
    e.name = nameOf (.object ms) ∧ e.package = (Assoc.get? "package" ms).map Value.asText? ∧
      e.base = member "base" ms ∧
      List.Forall₂ (fun v y => property e.name v = .ok y) (propertyValues ms) e.properties := by
  obtain ⟨x, hx, he⟩ := singleClass_eq_ok.mp h
  obtain ⟨hname, hpackage, hbase, hproperties⟩ := classEntry_eq_ok hx
  obtain ⟨htext, hlettered, hbase', hletteredProperties⟩ := Raw.ClassEntry.lettered?_eq_some he
  refine ⟨?_, ?_, hbase'.trans hbase, ?_⟩
  · simp [nameOf, Value.member?, hname, htext, Value.asText?]
  · rw [eq_map_of_mapM_textOrNull? hlettered, hpackage]
  · refine (forall₂_comp hproperties hletteredProperties).imp fun v y h => ?_
    obtain ⟨p, hp, hy⟩ := h
    rw [htext] at hp
    exact property_eq_ok.mpr ⟨p, hp, hy⟩

theorem described_singleClass {v : Value} {e : Enfold.ClassEntry} (h : singleClass v = .ok e) :
    e.Described := by
  obtain ⟨x, -, he⟩ := singleClass_eq_ok.mp h
  exact described_letteredClass he

end Description

namespace Model

variable {m m' : Model} {c d : ClassId} {p : PropertyId}

/-! ### Entries that are added -/

/-- The second model has some properties more, which belong to one class. -/
structure Filled (m m' : Model) (c : ClassId) (xs : List Property) : Prop where
  size_eq : m'.classes.size = m.classes.size
  properties_le : m.properties.size ≤ m'.properties.size
  decl_of_ne : ∀ {d}, d ≠ c → m'.decl d = m.decl d
  prop_of_lt : ∀ {p : PropertyId}, p.index < m.properties.size → m'.prop p = m.prop p
  decl_self : ∃ ps, m'.decl c = { m.decl c with properties := (m.decl c).properties ++ ps } ∧
    List.Forall₂ (fun x p => m'.prop p = { x with owner := some c }) xs ps

theorem filled_addProperties (xs : List Property) (hc : c.index < m.classes.size) :
    Filled m (xs.foldl (fun m x => m.addProperty c x) m) c xs := by
  induction xs generalizing m with
  | nil => exact ⟨rfl, Nat.le_refl _, fun _ => rfl, fun _ => rfl, [], by simp, .nil⟩
  | cons x xs ih =>
    have h := ih (m := m.addProperty c x) (by simpa using hc)
    have hsize : m.properties.size < (m.addProperty c x).properties.size := by simp
    obtain ⟨ps, hps, hxs⟩ := h.decl_self
    have hx : (xs.foldl (fun m x => m.addProperty c x) (m.addProperty c x)).prop
        ⟨m.properties.size⟩ = { x with owner := some c } := by
      rw [h.prop_of_lt (p := ⟨m.properties.size⟩) hsize, prop_addProperty, if_pos rfl]
    refine ⟨by simpa using h.size_eq, Nat.le_of_lt (Nat.lt_of_lt_of_le hsize h.properties_le),
      fun hd => ?_, fun hp => ?_, ⟨m.properties.size⟩ :: ps, ?_, .cons hx hxs⟩
    · rw [List.foldl_cons, h.decl_of_ne hd, decl_addProperty hc, if_neg hd]
    · rw [List.foldl_cons, h.prop_of_lt (Nat.lt_trans hp hsize), prop_addProperty, if_neg]
      rintro rfl
      exact Nat.lt_irrefl _ hp
    · rw [List.foldl_cons, hps, decl_addProperty hc, if_pos rfl]
      simp

structure Placed (m : Model) (l : Listing) (c : ClassId) : Prop where
  localName_eq : m.localName c = l.localName
  decl_eq : ∃ e ps, singleClass l.entry = .ok e ∧
    m.decl c = { e.decl l.package with
      package := l.package, parent := l.parent.map ClassId.mk, properties := ps } ∧
    List.Forall₂ (fun x p => m.prop p = { x with owner := some c }) e.properties ps

theorem Placed.mono {l : Listing} (h : m.Placed l c) (hm : m.Linked) (hx : m.GrowsInto m')
    (hc : c.index < m.classes.size) : m'.Placed l c := by
  obtain ⟨e, ps, he, hdecl, hps⟩ := h.decl_eq
  refine ⟨(hx.localName_eq hm hc).trans h.localName_eq, e, ps, he, (hx.decl_eq hc).trans hdecl, ?_⟩
  refine hps.imp fun x p hp => (hx.prop_eq (lt_of_owner (c := c) ?_)).trans hp
  rw [hp]

/-! ### Drafts that grow -/

def baseLink (q : Listing × Nat) : Option (ClassId × Value) :=
  if (baseMember q.1.entry).isTruthy then some (⟨q.2⟩, baseMember q.1.entry) else none

/-- The classes that come next stand in a scope of the description. -/
def Opens (m : Model) (package : Option String) (parent : Option ClassId) : Scope → Prop
  | .top default => parent = none ∧ package = default
  | .inside place p name => parent = some ⟨place⟩ ∧ place < m.classes.size ∧
    (m.decl ⟨place⟩).package = p ∧ m.localName ⟨place⟩ = name ∧
    ⟨m.classes.size - 1⟩ ∈ m.subtree ⟨place⟩

/-- The classes of a list of entries were added behind those that were there. -/
structure Grown (d d' : Draft) (ls : List Listing) : Prop where
  grows : d.model.GrowsInto d'.model
  described : d'.model.Described
  inOrder : d'.model.InOrder
  size_eq : d'.model.classes.size = d.model.classes.size + ls.length
  placed : ∀ q ∈ ls.zipIdx d.model.classes.size, d'.model.Placed q.1 ⟨q.2⟩
  bases_eq : d'.bases = d.bases ++ (ls.zipIdx d.model.classes.size).filterMap baseLink

section Grown

variable {e : Draft} {ls ls' : List Listing} {d d' : Draft} {package : Option String}
  {parent : Option ClassId} {s : Scope}

theorem Grown.refl (hd : d.model.Described) (ho : d.model.InOrder) : Grown d d [] :=
  ⟨.refl _, hd, ho, rfl, by simp, by simp⟩

theorem Grown.append (h : Grown d d' ls) (h' : Grown d' e ls') : Grown d e (ls ++ ls') where
  grows := h.grows.trans h'.grows
  described := h'.described
  inOrder := h'.inOrder
  size_eq := by rw [h'.size_eq, h.size_eq, List.length_append, Nat.add_assoc]
  placed q hq := by
    rw [List.zipIdx_append, ← h.size_eq] at hq
    rcases List.mem_append.mp hq with hq | hq
    · refine (h.placed q hq).mono h.described.toLinked h'.grows ?_
      rw [h.size_eq]
      exact (List.mem_zipIdx hq).2.1
    · exact h'.placed q hq
  bases_eq := by
    rw [h'.bases_eq, h.bases_eq, List.zipIdx_append, List.filterMap_append, h.size_eq,
      List.append_assoc]

theorem Opens.extend {m : Model} (h : m.Opens package parent s) (hm : m.Linked)
    (hx : m.GrowsInto m') (hlast : ∀ b, parent = some b → ⟨m'.classes.size - 1⟩ ∈ m'.subtree b) :
    m'.Opens package parent s := by
  cases s with
  | top => exact h
  | inside place p name =>
    obtain ⟨hp, hlt, hpackage, hname, -⟩ := h
    exact ⟨hp, Nat.lt_of_lt_of_le hlt hx.size_le, by rwa [hx.decl_eq hlt],
      (hx.localName_eq hm hlt).trans hname, hlast _ hp⟩

theorem Opens.parent_eq {m : Model} (h : m.Opens package parent s) :
    s.parent.map ClassId.mk = parent := by
  cases s with
  | top | inside => exact h.1.symm

theorem Opens.parent_lt {m : Model} (h : m.Opens package parent s) :
    ∀ b, parent = some b → b.index < m.classes.size := by
  cases s with
  | top => simp [h.1]
  | inside => rintro b hb; cases h.1.symm.trans hb; exact h.2.1

theorem Opens.last {m : Model} (h : m.Opens package parent s) :
    ∀ b, parent = some b → ⟨m.classes.size - 1⟩ ∈ m.subtree b := by
  cases s with
  | top => simp [h.1]
  | inside => rintro b hb; cases h.1.symm.trans hb; exact h.2.2.2.2

/-! ### The class of an entry -/

theorem filled_addEntry (m : Model) (x : ClassEntry) (package : Option String)
    (parent : Option ClassId) : Filled (m.addClass (x.decl package) parent).1
      (m.addEntry x package parent).1 ⟨m.classes.size⟩ x.properties :=
  filled_addProperties x.properties (by simp)

theorem growsInto_addEntry (m : Model) (x : ClassEntry) (package : Option String)
    (parent : Option ClassId) : m.GrowsInto (m.addEntry x package parent).1 where
  size_le := by rw [(filled_addEntry m x package parent).size_eq]; simp
  properties_le := (filled_addEntry m x package parent).properties_le
  decl_eq {c} hc := by
    have hne : c ≠ ⟨m.classes.size⟩ := by rintro rfl; exact Nat.lt_irrefl _ hc
    rw [(filled_addEntry m x package parent).decl_of_ne hne]
    exact decl_addClass_of_ne _ parent (Nat.ne_of_lt hc)
  prop_eq hp := (filled_addEntry m x package parent).prop_of_lt hp

theorem decl_addClass_of_opens {ms : Raw.Members} {x : ClassEntry}
    (hx : singleClass (.object ms) = .ok x) (h : m.Opens package parent s) :
    (m.addClass (x.decl package) parent).1.decl ⟨m.classes.size⟩ =
      { x.decl (s.packageOf (.object ms)) with
        package := s.packageOf (.object ms), parent := s.parent.map ClassId.mk } := by
  rw [decl_addClass_self]
  cases s with
  | top default =>
    obtain ⟨rfl, rfl⟩ := h
    have hpackage := (of_singleClass_eq_ok hx).2.1
    simp only [ClassEntry.decl, Scope.packageOf, Scope.parent, Option.map_none, Value.member?,
      hpackage]
  | inside place p name =>
    obtain ⟨rfl, -, rfl, -, -⟩ := h
    rfl

theorem placed_addEntry {ms : Raw.Members} {x : ClassEntry} (hx : singleClass (.object ms) = .ok x)
    (hm : m.Linked) (hm' : (m.addEntry x package parent).1.Linked)
    (h : m.Opens package parent s) :
    (m.addEntry x package parent).1.Placed (s.listing (.object ms)) ⟨m.classes.size⟩ := by
  have hfilled := filled_addEntry m x package parent
  obtain ⟨ps, hdecl, hps⟩ := hfilled.decl_self
  rw [decl_addClass_of_opens hx h] at hdecl
  refine ⟨?_, x, _, hx, hdecl, hps⟩
  have hname : x.name = nameOf (.object ms) := (of_singleClass_eq_ok hx).1
  cases s with
  | top default => rw [localName_of_root (by rw [hdecl]; rfl), hdecl]; exact hname
  | inside place p name =>
    obtain ⟨-, hlt, -, hlocal, -⟩ := h
    rw [localName_of_parent (c := ⟨place⟩) hm' (by rw [hdecl]; rfl),
      (growsInto_addEntry m x package parent).localName_eq hm hlt, hlocal, hdecl]
    exact congrArg _ hname

def Draft.withEntry (d : Draft) (x : ClassEntry) (package : Option String)
    (parent : Option ClassId) : Draft where
  model := (d.model.addEntry x package parent).1
  bases := if x.base.isTruthy then d.bases ++ [(⟨d.model.classes.size⟩, x.base)] else d.bases

theorem addTree_node (d : Draft) (x : ClassEntry) (nested : List ClassTree) :
    d.addTree package parent (.node x nested) =
      (d.withEntry x package parent).addTrees package (some ⟨d.model.classes.size⟩) nested := by
  rw [Draft.addTree]
  rfl

theorem grown_withEntry {ms : Raw.Members} {x : ClassEntry} (hx : singleClass (.object ms) = .ok x)
    (hd : d.model.Described) (ho : d.model.InOrder) (h : d.model.Opens package parent s) :
    Grown d (d.withEntry x package parent) [s.listing (.object ms)] := by
  obtain ⟨hdescribed, hsize, -⟩ := hd.addEntry (described_singleClass hx) package h.parent_lt
  have hplaced := placed_addEntry hx hd.toLinked hdescribed.toLinked h
  have hgrows := growsInto_addEntry d.model x package parent
  obtain ⟨_, _, _, hdecl, _⟩ := hplaced.decl_eq
  refine ⟨hgrows, hdescribed, ho.extend hd.toLinked hgrows hsize ?_, hsize, ?_, ?_⟩
  · intro b hb
    rw [hdecl] at hb
    cases s with
    | top => cases hb
    | inside => cases hb; exact ⟨h.2.1, h.2.2.2.2⟩
  · rintro q hq
    obtain rfl := List.mem_singleton.mp hq
    exact hplaced
  · have hlink : baseLink (s.listing (.object ms), d.model.classes.size) =
        if x.base.isTruthy then some (⟨d.model.classes.size⟩, x.base) else none := by
      rw [(of_singleClass_eq_ok hx).2.2.1]
      rfl
    simp only [Draft.withEntry, List.zipIdx_singleton, List.filterMap_cons, hlink]
    split <;> simp

/-- The classes nested in an entry are added next. -/
theorem opens_within {ms : Raw.Members} {x : ClassEntry}
    (hg : Grown d (d.withEntry x package parent) [s.listing (.object ms)]) :
    (d.withEntry x package parent).model.Opens package (some ⟨d.model.classes.size⟩)
      (s.within d.model.classes.size (.object ms)) := by
  have hplaced := hg.placed (s.listing (.object ms), d.model.classes.size) (by simp)
  obtain ⟨_, _, _, hdecl, _⟩ := hplaced.decl_eq
  have hsize := hg.size_eq
  refine ⟨rfl, by rw [hsize]; simp, by rw [hdecl]; rfl, hplaced.localName_eq, ?_⟩
  rw [hsize]
  exact mem_subtree_self _ _

theorem opens_of_within {ms : Raw.Members} {x : ClassEntry} (h : d.model.Opens package parent s)
    (hd : d.model.Linked) (hg : Grown d (d.withEntry x package parent) [s.listing (.object ms)])
    (hg' : Grown (d.withEntry x package parent) d' ls)
    (h' : d'.model.Opens package (some ⟨d.model.classes.size⟩)
      (s.within d.model.classes.size (.object ms))) : d'.model.Opens package parent s := by
  refine h.extend hd (hg.grows.trans hg'.grows) fun b hb => ?_
  have hplaced := hg.placed (s.listing (.object ms), d.model.classes.size) (by simp)
  obtain ⟨_, _, _, hdecl, _⟩ := hplaced.decl_eq
  have hlt : d.model.classes.size < (d.withEntry x package parent).model.classes.size := by
    rw [hg.size_eq]
    simp
  have hparent : (d'.model.decl ⟨d.model.classes.size⟩).parent = some b := by
    rw [hg'.grows.decl_eq (c := ⟨d.model.classes.size⟩) hlt, hdecl, ← hb]
    exact h.parent_eq
  have hself := mem_subtree_of_parent hg'.described.toLinked hparent (mem_subtree_self _ b)
  exact (sublist_subtree hself).subset (h'.last _ rfl)

mutual

/-- The classes of a tree come into a draft as their entries are listed. -/
theorem grown_tree (package : Option String) : ∀ {r : Raw.ClassTree} {v : Value} {t : ClassTree}
    {s : Scope} {parent : Option ClassId} {d : Draft}, Raw.tree v = .ok r → r.lettered? = some t →
    d.model.Described → d.model.InOrder → d.model.Opens package parent s →
    Grown d (d.addTree package parent t) (listing s d.model.classes.size v) ∧
      (d.addTree package parent t).model.Opens package parent s
  | .node y rs, v, t, s, parent, d, hr, ht, hd, ho, h => by
    obtain ⟨ms, rfl, hy, hrs⟩ := of_tree_eq_ok hr
    obtain ⟨x, hx, ts, hts, rfl⟩ := Raw.ClassTree.lettered?_eq_some.mp ht
    -- The class of the entry comes first, and those nested in it stand in its scope.
    have hg := grown_withEntry (singleClass_eq_ok.mpr ⟨y, hy, hx⟩) hd ho h
    have hw := opens_within hg
    obtain ⟨hg', hw'⟩ := grown_trees package hrs hts hg.described hg.inOrder hw
    rw [addTree_node, listing_object]
    rw [hg.size_eq] at hg'
    exact ⟨hg.append hg', opens_of_within h hd.toLinked hg hg' hw'⟩

theorem grown_trees (package : Option String) : ∀ {rs : List Raw.ClassTree} {vs : List Value}
    {ts : List ClassTree} {s : Scope} {parent : Option ClassId} {d : Draft},
    Raw.trees vs = .ok rs → Raw.letteredTrees? rs = some ts → d.model.Described →
    d.model.InOrder → d.model.Opens package parent s →
    Grown d (d.addTrees package parent ts) (listings s d.model.classes.size vs) ∧
      (d.addTrees package parent ts).model.Opens package parent s
  | [], vs, ts, s, parent, d, hr, ht, hd, ho, h => by
    obtain rfl := of_trees_nil_eq_ok hr
    cases ht
    exact ⟨.refl hd ho, h⟩
  | r :: rs, vs, ts, s, parent, d, hr, ht, hd, ho, h => by
    obtain ⟨v, vs, rfl, hv, hvs⟩ := of_trees_cons_eq_ok hr
    obtain ⟨t, hrt, ts, hts, rfl⟩ := Raw.letteredTrees?_cons_eq_some.mp ht
    obtain ⟨hg, hopen⟩ := grown_tree package hv hrt hd ho h
    obtain ⟨hg', hopen'⟩ := grown_trees package hvs hts hg.described hg.inOrder hopen
    rw [hg.size_eq] at hg'
    rw [Draft.addTrees, listings]
    exact ⟨hg.append hg', hopen'⟩

end

end Grown

end Model
end Enfold
