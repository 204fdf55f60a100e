import Enfold.Proofs.Model.Filing
import Enfold.Proofs.Pass.Uniqueness

/-! # Factories after a run

A wrapper gets an implementation if its owner has one, and is filed with it under the name that it
has at that moment. Placement takes the entry along when it renames the wrapper. It takes it along
as well when it renames another class of that name.
-/

namespace Enfold

open PassM

variable {n : Naming} {m m' : Model} {s t u : PassState} {k : Candidate} {r : Record}
  {rs : List Record} {c d w : ClassId} {q x : PropertyId} {plan : WrapperPlan} {i : Option String}
  {ws cs : List ClassId}

namespace Model

def isImplemented (m : Model) (c : ClassId) : Bool :=
  ((m.decl c).implementation.filter (· ≠ "")).isSome

/-- Classes that are found under one name in the factory of their package. -/
def Namesakes (m : Model) (c d : ClassId) : Prop :=
  (m.decl c).package = (m.decl d).package ∧ m.qualifiedName c = m.qualifiedName d

instance (m : Model) (c d : ClassId) : Decidable (m.Namesakes c d) :=
  inferInstanceAs (Decidable (_ ∧ _))

theorem Namesakes.symm (h : m.Namesakes c d) : m.Namesakes d c := ⟨h.1.symm, h.2.symm⟩

theorem filedAs?_implementWrapper (p : Option String) (key : String) :
    (m.implementWrapper c w q).filedAs? p key =
      if p = (m.decl w).package ∧ key = m.qualifiedName w then
        m.implementationBeside c w <|> m.filedAs? p key
      else m.filedAs? p key := by
  unfold implementWrapper implementationBeside
  cases (m.decl c).implementation.filter (· ≠ "") with
  | none => simp
  | some i =>
    dsimp only
    have hdecl := m.decl_modifyClass_or (c := w) fun e =>
      { e with implementation := some (besideLast i (implementationName (m.decl w).name)) }
    rw [filedAs?_modifyFactory_put, decl_modifyProperty,
      qualifiedName_congr (m := m) fun d => by
        rw [decl_modifyProperty]
        rcases hdecl d with h | h <;> rw [h] <;> exact ⟨rfl, rfl, rfl⟩]
    have hpackage (j : String) : ((m.modifyClass w fun e => { e with
        implementation := some j }).decl w).package = (m.decl w).package := by
      rcases m.decl_modifyClass_or (c := w) (fun e => { e with implementation := some j }) w with
        h | h <;> rw [h]
    rw [hpackage]
    rfl

theorem KeyedOnce.implementWrapper (h : m.KeyedOnce) : (m.implementWrapper c w q).KeyedOnce := by
  unfold Model.implementWrapper
  split
  · exact h
  · exact KeyedOnce.modifyFactory (m := (m.modifyClass w _).modifyProperty q _) h
      fun f hf => Assoc.nodup_keys_put hf

theorem factories_rewire (m : Model) (k : Candidate) (w : ClassId) (plan : WrapperPlan) :
    (m.rewire k w plan).factories = m.factories := by
  unfold rewire encase fitContent
  dsimp only
  split <;> rfl

theorem implementation_rewire (hf : m.Fits k plan) (h : k.prop ∈ (m.decl k.owner).properties)
    (hp : k.prop.index < m.properties.size) (hw : w = ⟨m.classes.size⟩)
    (hq : q = ⟨m.properties.size + (m.extras k.prop).length⟩) :
    (((m.addWrapper k plan).1.rewire k w plan).decl w).implementation = none ∧
      (((m.addWrapper k plan).1.rewire k w plan).prop q).implementationType = none := by
  have hc := class_lt_of_mem h
  have hwk : w ≠ k.owner := by
    rintro rfl
    rw [hw] at hc
    exact absurd hc (Nat.lt_irrefl _)
  constructor
  · rw [decl_rewire (by exact hp) (by simp [addWrapper]; omega) (by simp [addWrapper, hw]) hwk,
      if_pos rfl, hw, decl_addWrapper_self hf]
  · have hqk : q ≠ k.prop := by
      rintro rfl
      rw [hq] at hp
      exact absurd hp (Nat.not_lt.mpr (Nat.le_add_right _ _))
    rw [prop_rewire (by exact hp), if_neg hqk, if_neg, if_pos]
    · rfl
    · exact hq
    · rw [hq]
      exact end_notMem_extras

/-! ### One wrapper is filed -/

structure Implements (m : Model) (k : Candidate) (m' : Model) (w : ClassId) (q : PropertyId)
    (i : Option String) : Prop where
  isSome_iff : i.isSome = m.isImplemented k.owner
  ne_empty : i ≠ some ""
  implementation : (m'.decl w).implementation = i
  implementationType : (m'.prop q).implementationType = i
  entry : ∀ p key, m'.filedAs? p key =
    if p = (m'.decl w).package ∧ key = m'.qualifiedName w then i <|> m.filedAs? p key
    else m.filedAs? p key
  keyedOnce : m.KeyedOnce → m'.KeyedOnce

theorem implements_implementWrapper (hw : w.index < m.classes.size)
    (hq : q.index < m.properties.size) (hwnone : (m.decl w).implementation = none)
    (hqnone : (m.prop q).implementationType = none) :
    m.Implements k (m.implementWrapper k.owner w q) w q (m.implementationBeside k.owner w) := by
  have hself : (m.implementWrapper k.owner w q).decl w =
      { m.decl w with implementation := m.implementationBeside k.owner w } := by
    rw [decl_implementWrapper hw, if_pos rfl, hwnone]
    simp
  have hname : (m.implementWrapper k.owner w q).qualifiedName w = m.qualifiedName w := by
    refine qualifiedName_congr (fun d => ?_) w
    rw [decl_implementWrapper hw]
    split
    · next hd => rw [hd]; exact ⟨rfl, rfl, rfl⟩
    · exact ⟨rfl, rfl, rfl⟩
  refine ⟨?_, ?_, by rw [hself], ?_, fun p key => ?_, KeyedOnce.implementWrapper⟩
  · rw [implementationBeside, isImplemented, Option.isSome_map]
  · rw [implementationBeside]
    intro he
    obtain ⟨x, -, hx⟩ := Option.map_eq_some_iff.mp he
    exact besideLast_ne_empty x (implementationName_ne_empty _) hx
  · rw [prop_implementWrapper hq, if_pos rfl, hqnone]
    simp
  · rw [filedAs?_implementWrapper, hself, hname]

theorem Implements.congr {m₀ m₁ : Model} (h : m.Implements k m' w q i)
    (howner : (m.decl k.owner).implementation = (m₀.decl k.owner).implementation)
    (hfactories : m.factories = m₀.factories) (hclasses : m₁.classes = m'.classes)
    (hproperties : m₁.properties = m'.properties) (hfactories' : m₁.factories = m'.factories) :
    m₀.Implements k m₁ w q i := by
  have hprop : m₁.prop q = m'.prop q := by rw [prop, hproperties, prop]
  refine ⟨?_, h.ne_empty, ?_, ?_, fun p key => ?_, fun hk => ?_⟩
  · rw [h.isSome_iff, isImplemented, howner, isImplemented]
  · rw [decl_congr hclasses, h.implementation]
  · rw [hprop, h.implementationType]
  · rw [filedAs?_congr hfactories', decl_congr hclasses, qualifiedName_congr_classes hclasses,
      h.entry, filedAs?_congr hfactories]
  · exact (h.keyedOnce (hk.congr hfactories)).congr hfactories'

end Model

/-- The wrapper of a candidate is implemented beside the owner of the candidate. -/
theorem Candidate.Encloses.implements (h : k.Encloses n plan s r t w q) (hm : s.model.Linked)
    (hk : k.prop ∈ (s.model.decl k.owner).properties) :
    s.model.Implements k t.model w q (t.model.implementationBeside k.owner w) := by
  have hwrap := h.wraps hm hk
  have hw := Model.wraps_rewire hm h.planned.fits hk
  rw [← h.reference_eq, ← h.wrapper_eq] at hw
  obtain ⟨hwnone, hqnone⟩ := Model.implementation_rewire h.planned.fits hk (hm.lt_of_mem hk)
    h.wrapper_eq h.reference_eq
  have hfactories := (s.model.addWrapper k plan).1.factories_rewire k w plan
  have hmodel := h.model
  generalize (s.model.addWrapper k plan).1.rewire k w plan = m₁ at *
  have hqlt : q.index < m₁.properties.size := by
    rw [hw.size_properties, h.reference_eq]
    exact Nat.lt_succ_self _
  have hbeside : t.model.implementationBeside k.owner w = m₁.implementationBeside k.owner w := by
    rw [Model.implementationBeside, hwrap.owner, (hwrap.wrapper_decl h.planned.fits).1,
      Model.implementationBeside, hw.owner, (hw.wrapper_decl h.planned.fits).1]
  have hi := Model.implements_implementWrapper (k := k) hw.wrapper_lt hqlt hwnone hqnone
  rw [hbeside]
  -- To list the wrapper in the episode changes neither classes nor factories.
  refine hi.congr (by rw [hw.owner]) hfactories ?_ ?_ ?_
  all_goals rw [hmodel]; rfl

/-! ### All wrappers are filed -/

def implementedWrappers (m : Model) (rs : List Record) : List ClassId :=
  wrappersOf (rs.filter fun r => m.isImplemented r.candidate.owner)

/-- Implemented wrappers are filed, unless another one is filed under the same name. -/
structure Model.Registered (m : Model) (ws : List ClassId) : Prop where
  keyedOnce : m.KeyedOnce
  accords : m.Accords
  lt_size : ∀ w ∈ ws, w.index < m.classes.size
  implemented : ∀ w ∈ ws, ∃ i, i ≠ "" ∧ (m.decl w).implementation = some i ∧
    (m.filed? w = some i ∨ ∃ k ∈ ws, k ≠ w ∧ m.Namesakes k w)

namespace Model.Registered

theorem unlink (h : m.Registered ws) (hm : m.Linked) (hc : x ∈ (m.decl c).properties)
    (hx : (m.prop x).reference = none) : (m.unlink c x).Registered ws := by
  have hxlt := hm.lt_of_mem hc
  have hsame (d) : (m.unlink c x).qualifiedName d = m.qualifiedName d ∧
      ((m.unlink c x).decl d).package = (m.decl d).package ∧
        ((m.unlink c x).decl d).implementation = (m.decl d).implementation := by
    obtain ⟨_, hd⟩ := exists_decl_unlink hc d
    exact ⟨qualifiedName_unlink hc d, by rw [hd], by rw [hd]⟩
  refine ⟨h.keyedOnce, fun y w hy => ?_, fun w hw => by simpa using h.lt_size w hw,
    fun w hw => ?_⟩
  · have hyx : y ≠ x := by
      rintro rfl
      rw [prop_unlink hxlt, if_pos rfl] at hy
      rw [hx] at hy
      cases hy
    rw [prop_unlink hxlt, if_neg hyx] at hy ⊢
    rw [(hsame w).2.2, size_unlink]
    exact h.accords y w hy
  · obtain ⟨i, hi, himpl, hfiled⟩ := h.implemented w hw
    refine ⟨i, hi, (hsame w).2.2.trans himpl, hfiled.imp (fun hf => ?_) fun ⟨k, hk, hkw, hn⟩ => ?_⟩
    · rw [filed?, (hsame w).1, (hsame w).2.1]
      exact hf
    · refine ⟨k, hk, hkw, ?_⟩
      rw [Namesakes, (hsame w).1, (hsame w).2.1, (hsame k).1, (hsame k).2.1]
      exact hn

end Model.Registered

theorem Model.Accords.wrap (h : m.Accords) (hm : m.Linked)
    (hx : (m.prop k.prop).reference = none) (hw : m.Wraps k plan m' w q)
    (hi : m.Implements k m' w q i) : m'.Accords := by
  intro y v hy
  by_cases hyq : y = q
  · subst hyq
    obtain ⟨j, hq⟩ := hw.reference
    obtain rfl : w = v := by
      rw [hq] at hy
      exact Option.some.inj hy
    exact ⟨hw.wrapper_lt, ⟨k.owner, by rw [hq]; rfl⟩,
      by rw [hi.implementationType, hi.implementation]⟩
  by_cases hyk : y = k.prop
  · rw [hyk, hw.moved] at hy
    have : (m.prop k.prop).reference = some v := hy
    rw [hx] at this
    cases this
  by_cases hye : y ∈ m.extras k.prop
  · rw [hw.textRuns y hye] at hy
    cases hy
  · rw [hw.prop_eq hyk hye hyq] at hy ⊢
    obtain ⟨hv, ho, htype⟩ := h y v hy
    exact ⟨hw.lt_size hv, ho, htype.trans (hw.old_eq hm hv).2.2.symm⟩

theorem Model.Implements.filed?_old (hi : m.Implements k m' w q i) (hm : m.Linked)
    (hw : m.Wraps k plan m' w q) (hd : d.index < m.classes.size) :
    m'.filed? d = m.filed? d ∨ m'.Namesakes w d ∧ i.isSome := by
  obtain ⟨hname, hpackage, -⟩ := hw.old_eq hm hd
  rw [filed?, filed?, hi.entry, hname, hpackage]
  split
  · next he =>
    cases i with
    | none => exact Or.inl rfl
    | some j => exact Or.inr ⟨⟨by rw [hpackage, he.1], by rw [hname, he.2]⟩, rfl⟩
  · exact Or.inl rfl

theorem Model.Registered.wrap (h : m.Registered ws) (hm : m.Linked)
    (hx : (m.prop k.prop).reference = none) (hw : m.Wraps k plan m' w q)
    (hi : m.Implements k m' w q i) :
    m'.Registered (ws ++ if m.isImplemented k.owner then [w] else []) := by
  have hnew : ∀ v, v ∈ (if m.isImplemented k.owner then [w] else []) ↔ v = w ∧ i.isSome := by
    intro v
    rw [hi.isSome_iff]
    split <;> simp [*]
  refine ⟨hi.keyedOnce h.keyedOnce, h.accords.wrap hm hx hw hi, fun v hv => ?_, fun v hv => ?_⟩
  all_goals rw [List.mem_append, hnew] at hv
  · rcases hv with hv | ⟨rfl, -⟩
    · exact hw.lt_size (h.lt_size v hv)
    · exact hw.wrapper_lt
  · rcases hv with hv | ⟨rfl, hsome⟩
    · obtain ⟨hname, hpackage, himpl'⟩ := hw.old_eq hm (h.lt_size v hv)
      obtain ⟨j, hj, himpl, hfiled⟩ := h.implemented v hv
      refine ⟨j, hj, himpl'.trans himpl, ?_⟩
      rcases hfiled with hf | ⟨v', hv', hne, hn⟩
      · rcases hi.filed?_old hm hw (h.lt_size v hv) with hkept | ⟨htaken, hsome⟩
        · exact Or.inl (hkept.trans hf)
        · refine Or.inr ⟨w, List.mem_append_right _ ((hnew w).mpr ⟨rfl, hsome⟩), ?_, htaken⟩
          rintro rfl
          exact hw.not_lt (h.lt_size w hv)
      · obtain ⟨hname', hpackage', -⟩ := hw.old_eq hm (h.lt_size v' hv')
        refine Or.inr ⟨v', List.mem_append_left _ hv', hne, ?_⟩
        rw [Namesakes, hname, hpackage, hname', hpackage']
        exact hn
    · obtain ⟨j, rfl⟩ := Option.isSome_iff_exists.mp hsome
      refine ⟨j, ?_, hi.implementation, Or.inl ?_⟩
      · rintro rfl
        exact hi.ne_empty rfl
      · rw [filed?, hi.entry, if_pos ⟨rfl, rfl⟩]
        rfl

theorem implementedWrappers_append (m : Model) (rs : List Record) (r : Record) :
    implementedWrappers m (rs ++ [r]) = implementedWrappers m rs ++
      if m.isImplemented r.candidate.owner then wrappersOf [r] else [] := by
  rw [implementedWrappers, implementedWrappers, List.filter_append, wrappersOf_append]
  cases h : m.isImplemented r.candidate.owner <;> simp [h, wrappersOf]

/-- The steps of a run file all wrappers that they implement. -/
theorem Synthesizing.registered (h : Synthesizing n s rs t) (hm : s.model.Described) :
    t.model.Registered (implementedWrappers s.model rs) := by
  have hn (q) := (hm.prop q).reference
  induction h with
  | start =>
    refine ⟨fun p f hf => ?_, fun q w hq => ?_, by simp [implementedWrappers, wrappersOf],
      by simp [implementedWrappers, wrappersOf]⟩
    · rw [hm.factories] at hf
      cases hf
    · rw [hn] at hq
      cases hq
  | @step rs t u r hrun hk hstep ih =>
    obtain ⟨hlinked, hmem, hprop, hcase⟩ := hrun.step_ok hm.toLinked hn hk hstep
    have href : (t.model.prop r.candidate.prop).reference = none := by rw [hprop, hn]
    rw [implementedWrappers_append]
    rcases hcase with hdrop | ⟨plan, w, q, hwrap⟩
    · obtain ⟨w, -, hr⟩ := hdrop.inherited
      have hd : r.deleted = true := by rw [hr]
      have hnone : wrappersOf [r] = [] := by simp [wrappersOf, hd]
      rw [hnone, ite_self, List.append_nil, hdrop.model]
      exact ih.unlink hlinked hmem href
    · have hsame : t.model.isImplemented r.candidate.owner =
          s.model.isImplemented r.candidate.owner := by
        obtain ⟨_, hd⟩ := (hrun.rewriting hm.toLinked hn).decl_eq hm.toLinked hn
          (Model.class_lt_of_mem hk.mem)
        rw [Model.isImplemented, hd, Model.isImplemented]
      have hone : wrappersOf [r] = [w] := by rw [hwrap.record]; rfl
      rw [hone, ← hsame]
      exact ih.wrap hlinked href (hwrap.wraps hlinked hmem) (hwrap.implements hlinked hmem)

/-! ### Placement -/

/-- No class that is renamed shares its name with one of some wrappers. -/
structure Model.EntriesApart (m : Model) (ws renamed : List ClassId) : Prop where
  wellNamed : m.WellNamed
  outerApart : m.OuterApart
  alone : ∀ c ∈ renamed, ∀ k ∈ m.subtree c, ∀ w ∈ ws, k ≠ w → ¬ m.Namesakes k w

instance (m : Model) (ws renamed : List ClassId) : Decidable (m.EntriesApart ws renamed) :=
  decidable_of_iff (m.WellNamed ∧ m.OuterApart ∧
      ∀ c ∈ renamed, ∀ k ∈ m.subtree c, ∀ w ∈ ws, k ≠ w → ¬ m.Namesakes k w)
    ⟨fun ⟨hw, ho, h⟩ => ⟨hw, ho, h⟩, fun ⟨hw, ho, h⟩ => ⟨hw, ho, h⟩⟩

theorem Model.EntriesApart.mono (h : m.EntriesApart ws cs) {ds : List ClassId} (hs : ds ⊆ cs) :
    m.EntriesApart ws ds :=
  { h with alone := fun c hc => h.alone c (hs hc) }

theorem Model.Renaming.renames {name : String} (h : m.Renaming c name) (hw : m.WellNamed)
    (ho : m.OuterApart) : m.Renames c (m.renameClass c name) where
  linked := h.linked
  wellNamed := hw
  wellNamed' := hw.renameClass h.numbered h.lt
  relabelled := m.relabelled_renameClass c name
  outerApart := ho
  free d hd hparent hpackage := by
    rw [name_renameClass h.lt]
    rintro rfl
    obtain ⟨claimed, hfree⟩ := h.free
    refine hfree (List.mem_append_left _ (List.mem_map.mpr ⟨d, ?_, rfl⟩))
    have hscope : m.scope d = m.scope c := by rw [scope, hparent, hpackage, scope]
    exact List.mem_filter.mpr ⟨(mem_walk h.linked).mpr hd, by simp [hscope, hparent]⟩

structure Kept (m : Model) (ws renamed : List ClassId) (m' : Model) : Prop where
  linked : m'.Linked
  wellNamed : m'.WellNamed
  outerApart : m'.OuterApart
  relabelled : m.Relabelled m' renamed
  keyedOnce : m'.KeyedOnce
  names : ∀ a b, a.index < m.classes.size → b.index < m.classes.size →
    (m.decl a).package = (m.decl b).package → m'.localName a = m'.localName b →
      m.localName a = m.localName b
  filed : ∀ w ∈ ws, w.index < m.classes.size ∧ ∃ i, m'.Filed w i

theorem Kept.eq_of_qualifiedName_eq (h : Kept m ws cs m') (hc : c.index < m.classes.size)
    {vs : List ClassId} (hlt : ∀ w ∈ vs, w.index < m.classes.size)
    (halone : ∀ k ∈ m.subtree c, ∀ w ∈ vs, k ≠ w → ¬ m.Namesakes k w) :
    ∀ k ∈ m'.subtree c, ∀ w ∈ vs, (m'.decl k).package = (m'.decl w).package →
      m'.qualifiedName k = m'.qualifiedName w → k = w := by
  intro k hk w hw hpackage he
  rw [h.relabelled.subtree_eq] at hk
  by_contra hkw
  refine halone k hk w hw hkw ?_
  have hp : (m.decl k).package = (m.decl w).package := by
    rw [← (h.relabelled.parent_eq k).2, hpackage, (h.relabelled.parent_eq w).2]
  refine ⟨hp, (Model.qualifiedName_eq_iff hp).mpr (h.names k w ?_ (hlt w hw) hp ?_)⟩
  · exact Model.lt_of_mem_subtree hk hc
  · exact (Model.qualifiedName_eq_iff hpackage).mp he

theorem Kept.renameClass (h : Kept m ws cs m') {name : String} (hr : m'.Renaming c name)
    (ha : m.EntriesApart ws (cs ++ [c])) : Kept m ws (cs ++ [c]) (m'.renameClass c name) := by
  have hrename := hr.renames h.wellNamed h.outerApart
  have hsize := h.relabelled.size
  refine { linked := hrename.linked', wellNamed := hrename.wellNamed',
           outerApart := hrename.outerApart', keyedOnce := h.keyedOnce.renameClass c name,
           relabelled := (h.relabelled.mono (by simp)).trans (hrename.relabelled.mono (by simp)),
           names := fun a b ha hb hp he => ?_, filed := fun w hw => ?_ }
  · refine h.names a b ha hb hp (hrename.localName_eq_of_eq (hsize ▸ ha) (hsize ▸ hb) ?_ he)
    rw [(h.relabelled.parent_eq a).2, (h.relabelled.parent_eq b).2, hp]
  · obtain ⟨hlt, i, hfiled⟩ := h.filed w hw
    refine ⟨hlt, hfiled.renameClass hrename h.keyedOnce hr.lt (hsize ▸ hlt) ?_⟩
    intro k hk hkw hpackage he
    exact hkw (h.eq_of_qualifiedName_eq (hsize ▸ hr.lt) (fun w hw => (h.filed w hw).1)
      (ha.alone c (by simp)) k hk w hw hpackage he)

theorem Model.EntriesApart.not_namesakes (h : s.model.EntriesApart ws cs) (hm : s.model.Linked)
    (hp : (placeClasses n).run s = .ok cs t) (hlt : ∀ w ∈ ws, w.index < s.model.classes.size)
    (hw : w ∈ ws) (hc : c ∈ ws) (hcw : c ≠ w) : ¬ s.model.Namesakes c w := by
  intro hn
  have hrel := placeClasses_relabelled hp
  have hstays {a b : ClassId} (ha : a ∈ ws) (hb : b ∈ ws) (hab : a ≠ b)
      (hn : s.model.Namesakes a b) : t.model.qualifiedName a = s.model.qualifiedName a ∧
        t.model.findClass? (s.model.qualifiedName a) = some a := by
    have hout : ∀ d ∈ cs, a ∉ s.model.subtree d := fun d hd hmem => h.alone d hd a hmem b hb hab hn
    have hname := hrel.qualifiedName_of_notMem hout
    refine ⟨hname, hname ▸ placeClasses_findClass? hm hp ((Model.mem_walk hm).mpr (hlt a ha)) ?_⟩
    exact fun hmem => hout a hmem (Model.mem_subtree_self _ a)
  have hfirst := (hstays hc hw hcw hn).2
  rw [hn.2, (hstays hw hc hcw.symm hn.symm).2] at hfirst
  exact hcw (Option.some.inj hfirst).symm

/-- Placement takes the entries of wrappers along if it renames none of their namesakes. -/
theorem Model.Registered.placeClasses (h : s.model.Registered ws) (hm : s.model.Linked)
    (hp : (placeClasses n).run s = .ok cs t) (ha : s.model.EntriesApart ws cs) :
    ∀ w ∈ ws, ∃ i, t.model.Filed w i := by
  have hstart : Kept s.model ws [] s.model := by
    refine ⟨hm, ha.wellNamed, ha.outerApart, .refl _ _, h.keyedOnce, fun _ _ _ _ _ he => he, ?_⟩
    intro w hw
    obtain ⟨i, hi, himpl, hfiled | ⟨k, hk, hkw, hn⟩⟩ := h.implemented w hw
    · exact ⟨h.lt_size w hw, i, hi, himpl, hfiled⟩
    · exact absurd hn (ha.not_namesakes hm hp h.lt_size hw hk hkw)
  have hend := placeClasses_inv (fun renamed m => s.model.EntriesApart ws renamed →
    Kept s.model ws renamed m) hm (fun _ => hstart)
    (fun _ _ _ _ hr _ hkept ha => (hkept (ha.mono (by simp))).renameClass hr ha) hp
  exact fun w hw => ((hend ha).filed w hw).2

theorem placeClasses_accords (hm : s.model.Linked) (h : s.model.Accords)
    (hw : ∀ w ∈ ws, ∃ i, i ≠ "" ∧ (s.model.decl w).implementation = some i)
    (hp : (placeClasses n).run s = .ok cs t) :
    t.model.Accords ∧ ∀ w ∈ ws, ∃ i, i ≠ "" ∧ (t.model.decl w).implementation = some i := by
  refine placeClasses_inv (fun _ m => m.Accords ∧
    ∀ w ∈ ws, ∃ i, i ≠ "" ∧ (m.decl w).implementation = some i) hm ⟨h, hw⟩ ?_ hp
  rintro _ m c name hr - ⟨haccords, hi⟩
  refine ⟨haccords.renameClass hr.linked hr.lt name, fun w hwmem => ?_⟩
  obtain ⟨i, hi, himpl⟩ := hi w hwmem
  exact Model.implementation_renameClass hr.lt name himpl hi

namespace Pass

variable {p : Pass} {result : PassResult} {files : FileTree}

/-- The model in which all wrappers are made and no class is placed yet. -/
def synthesized? (p : Pass) (s : PassState) : Option Model :=
  match (do synthesizeAll p.naming (← p.choose) : PassM (List Record)).run s with
  | .ok _ t => some t.model
  | .error _ _ => none

theorem synthesized?_eq_some {ks : List Candidate} {s u v : PassState} {rs : List Record}
    (hc : p.choose.run s = .ok ks u) (hs : (synthesizeAll p.naming ks).run u = .ok rs v) :
    p.synthesized? s = some v.model := by
  have hrun : (do synthesizeAll p.naming (← p.choose) : PassM (List Record)).run s = .ok rs v :=
    bind_eq_ok.mpr ⟨ks, u, hc, hs⟩
  rw [synthesized?, hrun]

/-- A wrapper is filed under its final name, as long as no renamed class has shared it. -/
theorem filed_of_run {v : Value} (hm : Model.ofValue v = .ok m)
    (h : p.run.run { model := m, files := files } = .ok result t) :
    ∃ m', p.synthesized? { model := m, files := files } = some m' ∧
      ∀ r ∈ result.records, r.deleted = false → m.isImplemented r.candidate.owner = true →
        ∃ w q i, r.wrapper = some w ∧ r.reference = some q ∧ i ≠ "" ∧
          (t.model.decl w).implementation = some i ∧
          (t.model.prop q).implementationType = some i ∧
          (m'.EntriesApart (implementedWrappers m result.records) result.renamed →
            t.model.filed? w = some i) := by
  have hd := Model.described_ofValue hm
  obtain ⟨ks, u, v, y, hc, hs, hp, ht, -⟩ := run_ok h
  obtain ⟨-, hu⟩ := choose_ok hc
  obtain ⟨x, ns, hx, hv⟩ := synthesizeAll_ok hs
  obtain ⟨-, hsyn⟩ := synthesizing_of_choose hd hc (List.prefix_refl ks) hx
  have hdu : u.model.Described := hu ▸ hd
  have hlinked : v.model.Linked := by
    rw [hv]
    exact ((hsyn.rewriting hdu.toLinked fun q => (hdu.prop q).reference).reshaped hdu.toLinked
      fun q => (hdu.prop q).reference).linked
  have hreg : v.model.Registered (implementedWrappers m result.records) := by
    have := hsyn.registered hdu
    rw [hu] at this
    rw [hv]
    exact this
  have himplemented : ∀ w ∈ implementedWrappers m result.records,
      ∃ i, i ≠ "" ∧ (v.model.decl w).implementation = some i := by
    intro w hw
    obtain ⟨i, hi, himpl, -⟩ := hreg.implemented w hw
    exact ⟨i, hi, himpl⟩
  obtain ⟨haccords, hend⟩ := placeClasses_accords hlinked hreg.accords himplemented hp
  refine ⟨v.model, synthesized?_eq_some hc hs, fun r hr hdel hi => ?_⟩
  obtain ⟨w, q, hset⟩ := (reshaped_of_described hd h).settled r hr hdel
  have hw : w ∈ implementedWrappers m result.records :=
    mem_wrappersOf.mpr ⟨r, List.mem_filter.mpr ⟨hr, hi⟩, hdel, hset.wrapper⟩
  obtain ⟨i, hi, himpl⟩ := hend w hw
  have hq : (t.model.prop q).reference = some w := by
    obtain ⟨_, _, _, hq⟩ := hset.standIn
    rw [hq]
    rfl
  rw [ht] at hq ⊢
  refine ⟨w, q, i, hset.wrapper, hset.reference, hi, himpl, ?_, fun ha => ?_⟩
  · rw [(haccords q w hq).2.2, himpl]
  · obtain ⟨j, hfiled⟩ := hreg.placeClasses hlinked hp ha w hw
    rw [hfiled.filed, ← hfiled.implementation, himpl]

def takenName : Value :=
  .object [("package", .text "shop"), ("classes", .list [
    .object [("name", .text "Items")],
    .object [("name", .text "Order"), ("implementation", .text "shop.impl.OrderImpl"),
      ("properties", .list [.object [("name", .text "item"), ("repeated", .bool true),
        ("customization", .object [("class", .text "Items")])]])]])]

theorem filed_of_takenName_run : ∃ m result t m', Model.ofValue takenName = .ok m ∧
    (⟨{}, none, {}⟩ : Pass).run.run { model := m } = .ok result t ∧
      (⟨{}, none, {}⟩ : Pass).synthesized? { model := m } = some m' ∧
      m'.EntriesApart (implementedWrappers m result.records) result.renamed ∧
      result.renamed = [⟨2⟩] ∧ ∃ r ∈ result.records, ∃ w q i, r.wrapper = some w ∧
        r.reference = some q ∧ i ≠ "" ∧ (t.model.decl w).implementation = some i ∧
          (t.model.prop q).implementationType = some i ∧ t.model.filed? w = some i := by
  obtain ⟨m, result, t, hm, hrun, hapart, hrenamed, r, hr, hd, hi⟩ :=
    exists_run_of_ran? ⟨{}, none, {}⟩ takenName (fun m result _ =>
      (∀ m' ∈ (⟨{}, none, {}⟩ : Pass).synthesized? { model := m },
        m'.EntriesApart (implementedWrappers m result.records) result.renamed) ∧
      result.renamed = [⟨2⟩] ∧ ∃ r ∈ result.records, r.deleted = false ∧
        m.isImplemented r.candidate.owner = true) (by decide +kernel)
  obtain ⟨m', hm', hall⟩ := filed_of_run hm hrun
  obtain ⟨w, q, i, hw, hq, hne, himpl, htype, hfiled⟩ := hall r hr hd hi
  have ha := hapart m' hm'
  exact ⟨m, result, t, m', hm, hrun, hm', ha, hrenamed, r, hr, w, q, i, hw, hq, hne, himpl, htype,
    hfiled ha⟩

/-- Two implemented classes whose wrappers are to have one name. -/
def sharedName : Value :=
  .object [("package", .text "shop"), ("classes", .list [
    .object [("name", .text "Order"), ("implementation", .text "shop.impl.OrderImpl"),
      ("properties", .list [.object [("name", .text "item"), ("repeated", .bool true),
        ("customization", .object [("class", .text "Items")])]])],
    .object [("name", .text "Invoice"), ("implementation", .text "shop.impl.InvoiceImpl"),
      ("properties", .list [.object [("name", .text "item"), ("repeated", .bool true),
        ("customization", .object [("class", .text "Items")])]])]])]

/-- The wrapper that is renamed takes the entry of the other one along. -/
theorem sharedName_not_filed : ¬ ∀ (v : Value) (m : Model) (p : Pass) (files : FileTree)
    (t : PassState) (result : PassResult), Model.ofValue v = .ok m → m.factories = [] →
    p.run.run { model := m, files := files } = .ok result t →
      ∀ r ∈ result.records, r.deleted = false → m.isImplemented r.candidate.owner = true →
        ∀ w, r.wrapper = some w → t.model.filed? w = (t.model.decl w).implementation := by
  intro claim
  obtain ⟨m, result, t, hm, hrun, r, hr, hd, hi, w, hw, hnone, hsome⟩ :=
    exists_run_of_ran? ⟨{}, none, {}⟩ sharedName (fun m result t =>
      ∃ r ∈ result.records, r.deleted = false ∧ m.isImplemented r.candidate.owner = true ∧
        ∃ w ∈ r.wrapper, t.model.filed? w = none ∧ (t.model.decl w).implementation.isSome)
      (by decide +kernel)
  have := claim sharedName m _ [] t result hm (Model.described_ofValue hm).factories hrun r hr hd hi
    w hw
  rw [← this, hnone] at hsome
  cases hsome

end Pass
end Enfold
