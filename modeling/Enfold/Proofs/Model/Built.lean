import Enfold.Proofs.Except
import Enfold.Proofs.Model.Edit

/-! # Models as they are built

A model that was built from a description is linked, and nothing in it comes from a pass.
-/

namespace Enfold

/-- Nothing of the property comes from a pass. -/
structure Property.Described (x : Property) : Prop where
  reference : x.reference = none
  synthetic : x.synthetic = false
  description : x.description = none
  collectionKind : x.collectionKind = none
  collectionType : x.collectionType = none
  collectionInterface : x.collectionInterface = .null
  instantiation : x.instantiation = none

theorem Property.described_default : (default : Property).Described := by
  constructor <;> rfl

theorem Property.Described.owned {x : Property} (h : x.Described) (o : Option ClassId) :
    ({ x with owner := o } : Property).Described :=
  ⟨h.reference, h.synthetic, h.description, h.collectionKind, h.collectionType,
    h.collectionInterface, h.instantiation⟩

def ClassEntry.Described (e : ClassEntry) : Prop :=
  ∀ x ∈ e.properties, x.Described ∧ x.owner = none

mutual

def ClassTree.Described : ClassTree → Prop
  | .node e nested => e.Described ∧ ClassTree.DescribedAll nested

def ClassTree.DescribedAll : List ClassTree → Prop
  | [] => True
  | t :: r => t.Described ∧ ClassTree.DescribedAll r

end

theorem Description.orUnlettered_eq_ok {α : Type} {x : Option α} {a : α} :
    orUnlettered x = .ok a ↔ x = some a := by
  cases x <;> simp [orUnlettered]

namespace Raw

theorem described_letteredProperty {p : Raw.Property} {x : Enfold.Property}
    (h : p.lettered? = some x) : x.Described ∧ x.owner = none := by
  simp only [Property.lettered?, Option.bind_eq_bind, Option.bind_eq_some_iff, Option.pure_def,
    Option.some.injEq] at h
  obtain ⟨_, -, _, -, _, -, _, -, _, -, _, -, rfl⟩ := h
  exact ⟨⟨rfl, rfl, rfl, rfl, rfl, rfl, rfl⟩, rfl⟩

theorem ClassEntry.lettered?_eq_some {x : Raw.ClassEntry} {e : Enfold.ClassEntry}
    (h : x.lettered? = some e) : x.name = .text e.name ∧
      x.package.mapM Value.textOrNull? = some e.package ∧ e.base = x.base ∧
      List.Forall₂ (fun p y => p.lettered? = some y) x.properties e.properties := by
  simp only [ClassEntry.lettered?, Option.bind_eq_bind, Option.bind_eq_some_iff, Option.pure_def,
    Option.some.injEq] at h
  obtain ⟨name, hname, package, hpackage, properties, hproperties, _, -, _, -, _, -, rfl⟩ := h
  refine ⟨?_, hpackage, rfl, mapM_eq_some.mp hproperties⟩
  cases hx : x.name with
  | text s => rw [hx] at hname; cases hname; rfl
  | null | bool | int | decimal | list | object => rw [hx] at hname; cases hname

theorem described_letteredClass {x : Raw.ClassEntry} {e : Enfold.ClassEntry}
    (h : x.lettered? = some e) : e.Described := by
  obtain ⟨-, -, -, hproperties⟩ := ClassEntry.lettered?_eq_some h
  intro y hy
  obtain ⟨p, -, hp⟩ := exists_left_of_forall₂ hproperties hy
  exact described_letteredProperty hp

theorem ClassTree.lettered?_eq_some {x : Raw.ClassEntry} {nested : List Raw.ClassTree}
    {t : Enfold.ClassTree} : (ClassTree.node x nested).lettered? = some t ↔
      ∃ e, x.lettered? = some e ∧ ∃ ts, letteredTrees? nested = some ts ∧ .node e ts = t := by
  simp [ClassTree.lettered?, Option.bind_eq_some_iff]

theorem letteredTrees?_cons_eq_some {r : Raw.ClassTree} {rs : List Raw.ClassTree}
    {ts : List Enfold.ClassTree} : letteredTrees? (r :: rs) = some ts ↔
      ∃ t, r.lettered? = some t ∧ ∃ ts', letteredTrees? rs = some ts' ∧ t :: ts' = ts := by
  simp [letteredTrees?, Option.bind_eq_some_iff]

mutual

theorem described_letteredTree : ∀ {r : Raw.ClassTree} {t : Enfold.ClassTree},
    r.lettered? = some t → t.Described
  | .node x nested, t, h => by
    obtain ⟨e, he, ts, hts, rfl⟩ := ClassTree.lettered?_eq_some.mp h
    exact ⟨described_letteredClass he, described_letteredTrees hts⟩

theorem described_letteredTrees : ∀ {rs : List Raw.ClassTree} {ts : List Enfold.ClassTree},
    letteredTrees? rs = some ts → ClassTree.DescribedAll ts
  | [], _, h => by cases h; trivial
  | r :: rs, ts, h => by
    obtain ⟨t, ht, ts, hts, rfl⟩ := letteredTrees?_cons_eq_some.mp h
    exact ⟨described_letteredTree ht, described_letteredTrees hts⟩

end

theorem described_lettered {r : Raw.Description} {d : Enfold.Description}
    (h : r.lettered? = some d) : ClassTree.DescribedAll d.classes := by
  simp only [Description.lettered?, Option.bind_eq_bind, Option.bind_eq_some_iff, Option.pure_def,
    Option.some.injEq] at h
  obtain ⟨_, -, _, -, ts, hts, rfl⟩ := h
  exact described_letteredTrees hts

end Raw

namespace Model

variable {m : Model} {c d : ClassId} {p : PropertyId} {x : Property}

/-- The model is linked, and nothing in it comes from a pass. -/
structure Described (m : Model) : Prop extends Linked m where
  isWrapper : ∀ c, (m.decl c).isWrapper = false
  prop : ∀ p, (m.prop p).Described
  factories : m.factories = []

theorem described_empty (e : Option Episode) : ({ episode := e } : Model).Described where
  toLinked := linked_empty e
  isWrapper c := by rw [decl_of_size_le (Nat.zero_le _)]; rfl
  prop p := by rw [prop_of_size_le (Nat.zero_le _)]; exact Property.described_default
  factories := rfl

theorem Described.addProperty (hm : m.Described) (hc : c.index < m.classes.size)
    (hx : x.Described) (ho : x.owner = none) : (m.addProperty c x).Described where
  toLinked := hm.toLinked.addProperty hc ho
  isWrapper d := by
    rw [decl_addProperty hc]
    split <;> exact hm.isWrapper _
  prop p := by
    rw [prop_addProperty]
    split
    · exact hx.owned _
    · exact hm.prop p
  factories := hm.factories

theorem Described.addProperties (xs : List Property) (hx : ∀ x ∈ xs, x.Described ∧ x.owner = none)
    (hm : m.Described) (hc : c.index < m.classes.size) :
    (xs.foldl (fun m x => m.addProperty c x) m).Described ∧
      (xs.foldl (fun m x => m.addProperty c x) m).classes.size = m.classes.size := by
  induction xs generalizing m with
  | nil => exact ⟨hm, rfl⟩
  | cons x xs ih =>
    obtain ⟨hd, ho⟩ := hx x List.mem_cons_self
    have := ih (fun y hy => hx y (List.mem_cons_of_mem _ hy)) (hm.addProperty hc hd ho)
      (by simpa using hc)
    simpa using this

theorem Described.addClass (hm : m.Described) {e : ClassDecl} (he : e.properties = [])
    (hw : e.isWrapper = false) {parent : Option ClassId}
    (hp : ∀ c, parent = some c → c.index < m.classes.size) :
    (m.addClass e parent).1.Described where
  toLinked := hm.toLinked.addClass he hp
  isWrapper c := by
    by_cases hc : c.index = m.classes.size
    · obtain rfl := ClassId.eq_mk hc
      rw [decl_addClass_self]
      cases parent <;> exact hw
    · rw [decl_addClass_of_ne e parent hc]
      exact hm.isWrapper c
  prop := hm.prop
  factories := hm.factories

theorem Described.addEntry (hm : m.Described) {e : ClassEntry} (he : e.Described)
    (package : Option String) {parent : Option ClassId}
    (hp : ∀ c, parent = some c → c.index < m.classes.size) :
    (m.addEntry e package parent).1.Described ∧
      (m.addEntry e package parent).1.classes.size = m.classes.size + 1 ∧
      (m.addEntry e package parent).2 = ⟨m.classes.size⟩ := by
  have hg : (m.addClass (e.decl package) parent).1.Described := hm.addClass rfl rfl hp
  have := hg.addProperties (c := ⟨m.classes.size⟩) e.properties he (by simp)
  exact ⟨this.1, this.2.trans (size_addClass _ _), rfl⟩

mutual

theorem described_addTree (package : Option String) (parent : Option ClassId) :
    ∀ (t : ClassTree) (d : Draft), t.Described → d.model.Described →
      (∀ c, parent = some c → c.index < d.model.classes.size) →
      (d.addTree package parent t).model.Described ∧
        d.model.classes.size ≤ (d.addTree package parent t).model.classes.size
  | .node e nested, d, ht, hd, hp => by
    obtain ⟨hg, hs, hc⟩ := hd.addEntry ht.1 package hp
    have := described_addTrees package (some (d.model.addEntry e package parent).2) nested
      ⟨(d.model.addEntry e package parent).1, if e.base.isTruthy then
        d.bases ++ [((d.model.addEntry e package parent).2, e.base)] else d.bases⟩ ht.2 hg
      (by rintro c ⟨⟩; rw [hc, hs]; exact Nat.lt_succ_self _)
    rw [Draft.addTree]
    exact ⟨this.1, Nat.le_trans (by rw [hs]; exact Nat.le_succ _) this.2⟩

theorem described_addTrees (package : Option String) (parent : Option ClassId) :
    ∀ (ts : List ClassTree) (d : Draft), ClassTree.DescribedAll ts → d.model.Described →
      (∀ c, parent = some c → c.index < d.model.classes.size) →
      (d.addTrees package parent ts).model.Described ∧
        d.model.classes.size ≤ (d.addTrees package parent ts).model.classes.size
  | [], d, _, hd, _ => ⟨hd, Nat.le_refl _⟩
  | t :: r, d, ht, hd, hp => by
    obtain ⟨hg, hs⟩ := described_addTree package parent t d ht.1 hd hp
    have := described_addTrees package parent r (d.addTree package parent t) ht.2 hg
      fun c hc => Nat.lt_of_lt_of_le (hp c hc) hs
    rw [Draft.addTrees]
    exact ⟨this.1, Nat.le_trans hs this.2⟩

end

theorem Described.linkBase {m' : Model} {link : ClassId × Value} (hm : m.Described)
    (h : m.linkBase link = .ok m') : m'.Described := by
  unfold Model.linkBase at h
  split at h
  · next b _ =>
    cases h
    -- Only the base of one class changes.
    refine ⟨hm.toLinked.modifyClass fun _ => ⟨rfl, rfl, rfl⟩, fun c => ?_, hm.prop, hm.factories⟩
    rcases m.decl_modifyClass_or (c := link.1) (fun d => { d with base := some b }) c with e | e <;>
      rw [e] <;> exact hm.isWrapper c
  · cases h

theorem ofValue_eq_ok {v : Value} : ofValue v = .ok m ↔ ∃ g, Raw.Graph.ofValue v = .ok g ∧
    ∃ d, g.lettered? = some d ∧ ofDescription d = .ok m := by
  rw [ofValue, exceptBind_eq_ok]
  refine exists_congr fun g => and_congr_right fun _ => ?_
  rw [exceptBind_eq_ok]
  simp only [Description.orUnlettered_eq_ok]

/-- A model of a value is linked, and as it was described. -/
theorem described_ofValue {v : Value} (h : ofValue v = .ok m) : m.Described := by
  obtain ⟨g, -, d, hd, h⟩ := ofValue_eq_ok.mp h
  have hg := (described_addTrees d.package none d.classes
    ⟨{ episode := d.episode.map Episode.ofList }, []⟩ (Raw.described_lettered hd)
    (described_empty _) (by simp)).1
  unfold ofDescription at h
  generalize Draft.addTrees d.package none ⟨{ episode := d.episode.map Episode.ofList }, []⟩
    d.classes = draft at h hg
  obtain ⟨m₀, bases⟩ := draft
  dsimp only at h hg
  clear hd
  induction bases generalizing m₀ with
  | nil => cases h; exact hg
  | cons b bs ih =>
    rw [List.foldlM_cons] at h
    obtain ⟨m₁, hb, h⟩ := exceptBind_eq_ok.mp h
    exact ih m₁ h (hg.linkBase hb)

end Model
end Enfold
