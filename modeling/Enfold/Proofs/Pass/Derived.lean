import Enfold.Proofs.Model.Siblings
import Enfold.Proofs.Pass.Again
import Enfold.Proofs.Pass.Capacity
import Enfold.Proofs.Pass.Factories

/-! # Names that are derived

A wrapper whose name is derived gets one that is free in its scope. If the names of a model tell its
classes apart, and none of them is a package of a class, that makes the qualified name of the
wrapper free among all classes, so that placement has nothing to rename.
-/

namespace Enfold

open PassM

variable {n : Naming} {m m' m'' : Model} {s t u : PassState} {c d w : ClassId} {q : PropertyId}
  {k : Candidate} {r : Record} {rs : List Record} {plan : WrapperPlan} {p : Pass}
  {result : PassResult}

/-! ### The name of one wrapper -/

theorem claimName_leastFree {limit : Value} {name free : String} {taken : List String}
    {scope : Option String} (h : (claimName limit name taken scope).run s = .ok free t) :
    Naming.IsLeastFree taken name free := by
  unfold claimName at h
  obtain ⟨⟨a, x⟩, hx, h⟩ := require_bind_eq_ok.mp h
  cases h
  exact Naming.isLeastFree_of_disambiguate hx

def Candidate.derivedName? (k : Candidate) (n : Naming) (m : Model) : Option String :=
  (n.wrapperClassName (m.prop k.prop).name k.directive.plural.isTruthy none).toOption

/-- The names of the classes beside which the wrapper of a candidate is to stand. -/
def Candidate.namesBeside (k : Candidate) (m : Model) : List String :=
  m.namesInScope (m.decl k.owner).package k.parent?

theorem Candidate.Planned.leastFree (h : k.Planned n m plan)
    (hk : k.directive.className = none) : ∃ name, k.derivedName? n m = some name ∧
      Naming.IsLeastFree (k.namesBeside m) name plan.className := by
  obtain ⟨s, t, rfl, hc⟩ := h.className
  unfold claimClassName at hc
  rw [run_get_bind, require_bind_eq_ok] at hc
  obtain ⟨name, hname, hc⟩ := hc
  rw [hk] at hname hc
  exact ⟨name, toOption_eq_some.mpr hname, claimName_leastFree hc⟩

/-! ### Names that tell classes apart -/

/-- No two classes have the same qualified name, and none of these names is a package. -/
structure Model.NamedApart (m : Model) : Prop where
  named : ∀ c ∈ m.walk, (m.decl c).name ≠ "" ∧ Pointless (m.decl c).name
  nodup : (m.walk.map m.qualifiedName).Nodup
  package_ne : ∀ c ∈ m.walk, ∀ d ∈ m.walk, (m.decl d).package ≠ some (m.qualifiedName c)

/-- Beside a class in the empty package stands none without a package. -/
structure Model.ToldApart (m : Model) : Prop extends m.NamedApart where
  package_empty : ∀ c ∈ m.walk, ∀ d ∈ m.walk,
    (m.decl c).package = none → (m.decl d).package ≠ some ""

theorem package_eq_of_filter {a b : Option String}
    (h : a.filter (· ≠ "") = b.filter (· ≠ "")) (ha : a = none → b ≠ some "")
    (hb : b = none → a ≠ some "") : a = b := by
  cases a with
  | none =>
    cases b with
    | none => rfl
    | some y => by_cases hy : y = "" <;> simp_all [Option.filter_some]
  | some x =>
    cases b with
    | none => by_cases hx : x = "" <;> simp_all [Option.filter_some]
    | some y => by_cases hx : x = "" <;> by_cases hy : y = "" <;> simp_all [Option.filter_some]

instance (m : Model) : Decidable m.NamedApart :=
  decidable_of_iff ((∀ c ∈ m.walk, (m.decl c).name ≠ "" ∧ Pointless (m.decl c).name) ∧
      (m.walk.map m.qualifiedName).Nodup ∧
      ∀ c ∈ m.walk, ∀ d ∈ m.walk, (m.decl d).package ≠ some (m.qualifiedName c))
    ⟨fun h => ⟨h.1, h.2.1, h.2.2⟩, fun h => ⟨h.1, h.2, h.3⟩⟩

instance (m : Model) : Decidable m.ToldApart :=
  decidable_of_iff (m.NamedApart ∧
      ∀ c ∈ m.walk, ∀ d ∈ m.walk, (m.decl c).package = none → (m.decl d).package ≠ some "")
    ⟨fun h => ⟨h.1, h.2⟩, fun h => ⟨h.1, h.2⟩⟩

theorem Model.same_unlink (hq : q ∈ (m.decl c).properties) (d : ClassId) :
    ((m.unlink c q).decl d).name = (m.decl d).name ∧
      ((m.unlink c q).decl d).parent = (m.decl d).parent ∧
        ((m.unlink c q).decl d).package = (m.decl d).package := by
  obtain ⟨_, hd⟩ := exists_decl_unlink hq d
  rw [hd]
  exact ⟨rfl, rfl, rfl⟩

theorem Model.nodup_unlink (hq : q ∈ (m.decl c).properties)
    (hn : (m.classIds.map m.qualifiedName).Nodup) :
    ((m.unlink c q).classIds.map (m.unlink c q).qualifiedName).Nodup := by
  have hname : (m.unlink c q).qualifiedName = m.qualifiedName := funext (qualifiedName_unlink hq)
  rw [hname, classIds, size_unlink]
  exact hn

/-- No name holds a point, and all scopes are those of the start. -/
structure Model.Confines (m : Model) (rs : List Record) (m' : Model) : Prop where
  linked : m.Linked
  toldApart : m.ToldApart
  advanced : Advanced m rs m'
  pointless : ∀ c, Pointless (m'.decl c).name
  nested : ∀ {c d}, (m'.decl d).parent = some c → c.index < m.classes.size
  packages : ∀ {d}, d.index < m'.classes.size →
    ∃ c, c.index < m.classes.size ∧ (m'.decl d).package = (m.decl c).package

namespace Model.Confines

theorem start (hm : m.Linked) (h : m.ToldApart) : m.Confines [] m where
  linked := hm
  toldApart := h
  advanced := .start hm
  pointless c := by
    by_cases hc : c.index < m.classes.size
    · exact (h.named c ((mem_walk hm).mpr hc)).2
    · rw [decl_of_size_le (Nat.le_of_not_lt hc)]
      exact List.not_mem_nil
  nested := hm.parent_lt_size
  packages hd := ⟨_, hd, rfl⟩

section Facts

variable (h : m.Confines rs m')

include h

theorem old_eq (hc : c.index < m.classes.size) : (m'.decl c).name = (m.decl c).name ∧
    (m'.decl c).package = (m.decl c).package ∧ m'.qualifiedName c = m.qualifiedName c := by
  obtain ⟨ps, -, hd⟩ := h.advanced.decl hc
  rw [hd]
  exact ⟨rfl, rfl, h.advanced.qualifiedName_eq h.linked ((mem_walk h.linked).mpr hc)⟩

theorem wellNamed : m'.WellNamed where
  pointless := h.pointless
  parent_ne {c d} hp := by
    have hc := h.nested hp
    rw [(h.old_eq hc).1]
    exact (h.toldApart.named c ((mem_walk h.linked).mpr hc)).1

theorem package_ne (hd : d.index < m'.classes.size) (hc : c.index < m.classes.size) :
    (m'.decl d).package ≠ some (m'.qualifiedName c) := by
  obtain ⟨b, hb, he⟩ := h.packages hd
  rw [he, (h.old_eq hc).2.2]
  exact h.toldApart.package_ne c ((mem_walk h.linked).mpr hc) b ((mem_walk h.linked).mpr hb)

theorem package_empty (hc : c.index < m'.classes.size) (hd : d.index < m'.classes.size)
    (hn : (m'.decl c).package = none) : (m'.decl d).package ≠ some "" := by
  obtain ⟨a, ha, hca⟩ := h.packages hc
  obtain ⟨b, hb, hdb⟩ := h.packages hd
  rw [hdb]
  rw [hca] at hn
  exact h.toldApart.package_empty a ((mem_walk h.linked).mpr ha) b ((mem_walk h.linked).mpr hb) hn

/-- In one place classes of one name would not be told apart. -/
theorem place_eq (hc : c.index < m'.classes.size) (hd : d.index < m'.classes.size)
    (he : m'.qualifiedName c = m'.qualifiedName d) : (m'.decl c).name = (m'.decl d).name ∧
      (m'.decl c).parent = (m'.decl d).parent ∧ (m'.decl c).package = (m'.decl d).package := by
  obtain ⟨hscope, hname⟩ := scope_eq_of_qualifiedName_eq h.advanced.linked h.wellNamed he
  have hne {b e} (hb : (m'.decl e).parent = some b) :
      (some (m'.qualifiedName b)).filter (· ≠ "") = some (m'.qualifiedName b) := by
    simp [Option.filter_some, qualifiedName_ne_empty (h.wellNamed.parent_ne hb)]
  refine ⟨hname, ?_⟩
  unfold scope at hscope
  cases hcp : (m'.decl c).parent with
  | none =>
    cases hdp : (m'.decl d).parent with
    | none =>
      rw [hcp, hdp] at hscope
      exact ⟨rfl, package_eq_of_filter hscope (h.package_empty hc hd) (h.package_empty hd hc)⟩
    | some b =>
      rw [hcp, hdp] at hscope
      dsimp only at hscope
      rw [hne hdp] at hscope
      exact absurd (Option.filter_eq_some_iff.mp hscope).1 (h.package_ne hc (h.nested hdp))
  | some a =>
    cases hdp : (m'.decl d).parent with
    | none =>
      rw [hcp, hdp] at hscope
      dsimp only at hscope
      rw [hne hcp] at hscope
      exact absurd (Option.filter_eq_some_iff.mp hscope.symm).1 (h.package_ne hd (h.nested hcp))
    | some b =>
      rw [hcp, hdp] at hscope
      dsimp only at hscope
      rw [hne hcp, hne hdp, Option.some.injEq, (h.old_eq (h.nested hcp)).2.2,
        (h.old_eq (h.nested hdp)).2.2] at hscope
      obtain rfl := List.inj_on_of_nodup_map h.toldApart.nodup
        ((mem_walk h.linked).mpr (h.nested hcp)) ((mem_walk h.linked).mpr (h.nested hdp)) hscope
      refine ⟨rfl, ?_⟩
      rw [h.advanced.linked.package_eq hcp, h.advanced.linked.package_eq hdp]

end Facts

/-! ### One more record -/

theorem drop (h : m.Confines rs m') (hk : r.candidate.Fresh m rs) (hd : r.deleted = true) :
    m.Confines (rs ++ [r]) (m'.unlink r.candidate.owner r.candidate.prop) := by
  have hsame := same_unlink (h.advanced.stands hk)
  refine ⟨h.linked, h.toldApart, h.advanced.drop hk hd, fun c => ?_, fun {c d} hp => ?_,
    fun {d} hlt => ?_⟩
  · rw [(hsame c).1]
    exact h.pointless c
  · rw [(hsame d).2.1] at hp
    exact h.nested hp
  · rw [(hsame d).2.2]
    exact h.packages (by simpa using hlt)

theorem wrap (h : m.Confines rs m') (hk : r.candidate.Fresh m rs) (hd : r.deleted = false)
    (hrw : r.wrapper = some w) (hf : m'.Fits r.candidate plan) (hp : Pointless plan.className)
    (hw : m'.Wraps r.candidate plan m'' w q) : m.Confines (rs ++ [r]) m'' := by
  obtain ⟨hname, hparent, hpackage⟩ := hw.wrapper_decl hf
  have howner := class_lt_of_mem hk.mem
  refine ⟨h.linked, h.toldApart, h.advanced.wrap hd hrw hw, fun c => ?_, fun {c d} hpar => ?_,
    fun {d} hlt => ?_⟩
  · by_cases hc : c = w
    · rw [hc, hname]
      exact hp
    · rw [(hw.sameBeside hc).1]
      exact h.pointless c
  · by_cases hdw : d = w
    · rw [hdw, hparent] at hpar
      exact eq_owner_of_parent? hpar ▸ howner
    · rw [(hw.sameBeside hdw).2.1] at hpar
      exact h.nested hpar
  · rcases hw.lt_or_eq hlt with hlt | rfl
    · rw [(hw.sameBeside (hw.ne_of_lt hlt)).2.2]
      exact h.packages hlt
    · rw [hpackage]
      exact h.packages (Nat.lt_of_lt_of_le howner h.advanced.size_le)

theorem qualifiedName_ne (h : m.Confines (rs ++ [r]) m'') (hl : m'.Linked)
    (hf : m'.Fits k plan) (hw : m'.Wraps k plan m'' w q)
    (hfree : plan.className ∉ k.namesBeside m') (hd : d.index < m'.classes.size) :
    m''.qualifiedName w ≠ m''.qualifiedName d := by
  intro he
  obtain ⟨hname, hparent, hpackage⟩ := hw.wrapper_decl hf
  obtain ⟨hsame, hsameParent, hsamePackage⟩ := hw.sameBeside (hw.ne_of_lt hd)
  obtain ⟨hn, hpar, hpkg⟩ := h.place_eq hw.wrapper_lt (hw.lt_size hd) he
  rw [hname, hsame] at hn
  rw [hparent, hsameParent] at hpar
  rw [hpackage, hsamePackage] at hpkg
  refine hfree ?_
  rw [hn]
  unfold Candidate.namesBeside namesInScope
  cases hkp : k.parent? with
  | some o =>
    have hd' : d ∈ m'.children o :=
      mem_children.mpr ⟨hd, hpar ▸ hkp, hl.parent_lt (hpar ▸ hkp)⟩
    exact List.mem_map_of_mem hd'
  | none =>
    refine List.mem_map_of_mem (List.mem_filter.mpr ⟨mem_roots.mpr ⟨hd, hpar ▸ hkp⟩, ?_⟩)
    simpa using hpkg.symm

theorem nodup (h : m.Confines (rs ++ [r]) m'') (hl : m'.Linked) (hf : m'.Fits k plan)
    (hw : m'.Wraps k plan m'' w q) (hfree : plan.className ∉ k.namesBeside m')
    (hn : (m'.classIds.map m'.qualifiedName).Nodup) :
    (m''.classIds.map m''.qualifiedName).Nodup := by
  have hkeep : m'.classIds.map m''.qualifiedName = m'.classIds.map m'.qualifiedName :=
    List.map_congr_left fun d hd => (hw.old_eq hl (mem_classIds.mp hd)).1
  rw [hw.classIds, List.map_append, List.nodup_append, hkeep]
  refine ⟨hn, List.nodup_singleton _, fun x hx y hy e => ?_⟩
  obtain ⟨d, hd, rfl⟩ := List.mem_map.mp (hkeep ▸ hx)
  obtain rfl := List.mem_singleton.mp hy
  exact h.qualifiedName_ne hl hf hw hfree (mem_classIds.mp hd) e.symm

end Model.Confines

/-! ### The steps of a run -/

/-- Classes keep names of their own as long as names are derived. -/
theorem Synthesizing.confines (h : Synthesizing n s rs t) (hm : s.model.Linked)
    (ha : s.model.ToldApart) (hescapes : n.escapes = Naming.defaultEscapes)
    (hnames : ∀ r ∈ rs, r.candidate.directive.className = none) :
    s.model.Confines rs t.model ∧ (t.model.classIds.map t.model.qualifiedName).Nodup := by
  induction h with
  | start => exact ⟨.start hm ha, (hm.perm_walk.map _).nodup_iff.mp ha.nodup⟩
  | @step rs t u r hrun hk hs ih =>
    obtain ⟨hconf, hn⟩ := ih fun r' hr => hnames r' (List.mem_append_left _ hr)
    have hname := hnames r (by simp)
    have hl := hconf.advanced.linked
    have hmem := hconf.advanced.stands hk
    rcases Candidate.synthesize_ok hl hmem hs with h | ⟨plan, w, q, h⟩
    · obtain ⟨w, -, hr⟩ := h.inherited
      rw [h.model]
      exact ⟨hconf.drop hk (by rw [hr]), Model.nodup_unlink hmem hn⟩
    · have hwraps := h.wraps hl hmem
      have hp := h.planned.pointless hescapes (by simp [hname])
      obtain ⟨name, -, hfree⟩ := h.planned.leastFree hname
      have hnext := hconf.wrap hk (by rw [h.record]) (by rw [h.record]) h.planned.fits hp hwraps
      exact ⟨hnext, hnext.nodup hl h.planned.fits hwraps hfree.notMem hn⟩

/-! ### Names after a run -/

namespace Pass

def upToCandidate (p : Pass) (q : PropertyId) : PassM Unit := do
  let candidates ← p.choose
  discard ((candidates.takeWhile (·.prop ≠ q)).mapM (Candidate.synthesize p.naming))

/-- The model in which the wrapping reaches the candidate that a property is. -/
def met? (p : Pass) (s : PassState) (q : PropertyId) : Option Model :=
  match (p.upToCandidate q).run s with
  | .ok _ t => some t.model
  | .error _ _ => none

theorem met?_eq_some {done rest : List Candidate} {x : PassState}
    (hc : p.choose.run s = .ok (done ++ k :: rest) u) (hk : k.prop ∉ done.map Candidate.prop)
    (h : (done.mapM (Candidate.synthesize p.naming)).run u = .ok rs x) :
    p.met? s k.prop = some x.model := by
  have hdone : (done ++ k :: rest).takeWhile (fun k' => k'.prop ≠ k.prop) = done := by
    rw [List.takeWhile_append_of_pos, List.takeWhile_cons_of_neg (by simp), List.append_nil]
    intro k' hk'
    simpa using fun e : k'.prop = k.prop => hk (e ▸ List.mem_map_of_mem hk')
  have hrun : (p.upToCandidate k.prop).run s = .ok () x := by
    refine bind_eq_ok.mpr ⟨_, u, hc, ?_⟩
    rw [hdone]
    exact bind_eq_ok.mpr ⟨rs, x, h, rfl⟩
  rw [met?, hrun]

/-- A wrapper has the name that was planned when the run met its candidate. -/
structure NamedWhenMet (p : Pass) (s : PassState) (r : Record) (m m' : Model) (plan : WrapperPlan)
    (w : ClassId) : Prop where
  wrapper : r.wrapper = some w
  met : p.met? s r.candidate.prop = some m
  planned : r.candidate.Planned p.naming m plan
  lt : w.index < m'.classes.size
  name : (m'.decl w).name = plan.className

theorem name_eq_of_synthesize (hm : t.model.Linked)
    (hk : k.prop ∈ (t.model.decl k.owner).properties) (h : (k.synthesize n).run t = .ok r u)
    (hc : c.index < t.model.classes.size) :
    c.index < u.model.classes.size ∧ (u.model.decl c).name = (t.model.decl c).name := by
  rcases Candidate.synthesize_ok hm hk h with h | ⟨plan, w, q, h⟩
  · rw [h.model]
    exact ⟨by simpa using hc, (Model.same_unlink hk c).1⟩
  · have hw := h.wraps hm hk
    exact ⟨hw.lt_size hc, (hw.sameBeside (hw.ne_of_lt hc)).1⟩

theorem namedWhenMet_of_choose {ks : List Candidate} {v : PassState} (hm : s.model.Linked)
    (hc : p.choose.run s = .ok ks u) (h : (synthesizeAll p.naming ks).run u = .ok rs v) :
    ∀ r ∈ rs, r.deleted = false → ∃ m plan w, p.NamedWhenMet s r m v.model plan w := by
  obtain ⟨x, ns, hx, rfl⟩ := synthesizeAll_ok h
  obtain ⟨hk, hu⟩ := choose_ok hc
  have hmem : ∀ k ∈ ks, k.prop ∈ (u.model.decl k.owner).properties := fun k hmem =>
    hu ▸ (Customization.of_mem_candidates (hk ▸ hmem)).1
  have hd : (ks.map Candidate.prop).Nodup := hk ▸ Customization.nodup_candidates hm
  refine (mapM_inv (t := x) (fun done rs t => (done.mapM (Candidate.synthesize p.naming)).run u =
      .ok rs t ∧ rs.map Record.candidate = done ∧ Synthesizing p.naming u rs t ∧
    ∀ r ∈ rs, r.deleted = false → ∃ m plan w, p.NamedWhenMet s r m t.model plan w) ?_
      ⟨rfl, rfl, .start, by simp⟩ hx).2.2.2
  rintro done k rest rs r t y rfl ⟨hrun, rfl, hsyn, hnamed⟩ hs
  have hfresh : k.Fresh u.model rs := Candidate.fresh_of_map_eq (hmem k (by simp)) hd rfl
  have hnow := hsyn.advanced (hu ▸ hm)
  have hstands := hnow.stands hfresh
  obtain rfl := Candidate.candidate_of_synthesize hnow.linked hstands hs
  refine ⟨mapM_append_ok hrun hs, by simp, hsyn.step hfresh hs, fun r' hr hdel => ?_⟩
  rcases List.mem_append.mp hr with hr | hr
  · obtain ⟨m, plan, w, hold⟩ := hnamed r' hr hdel
    obtain ⟨hlt, hname⟩ := name_eq_of_synthesize hnow.linked hstands hs hold.lt
    exact ⟨m, plan, w, { hold with lt := hlt, name := hname.trans hold.name }⟩
  · obtain rfl := List.mem_singleton.mp hr
    rcases Candidate.synthesize_ok hnow.linked hstands hs with h | ⟨plan, w, q, h⟩
    · obtain ⟨w, -, hr⟩ := h.inherited
      rw [hr] at hdel
      cases hdel
    · have hw := h.wraps hnow.linked hstands
      have hnot : r'.candidate.prop ∉ (rs.map Record.candidate).map Candidate.prop := by
        rw [List.map_append, List.nodup_append] at hd
        exact fun hin => hd.2.2 _ hin _ (by simp) rfl
      exact ⟨t.model, plan, w, by rw [h.record], met?_eq_some hc hnot hrun, h.planned,
        hw.wrapper_lt, (hw.wrapper_decl h.planned.fits).1⟩

/-- Where all names are derived and tell the classes apart, placement renames nothing, and wrappers
keep the first names that were free. -/
theorem derived_of_run (hm : s.model.Linked) (ha : s.model.ToldApart)
    (hescapes : p.naming.escapes = Naming.defaultEscapes)
    (hnames : ∀ k ∈ Customization.candidates ⟨p.options, p.control⟩ s.model,
      k.directive.className = none) (h : p.run.run s = .ok result t) :
    p.synthesized? s = some t.model ∧ (t.model.walk.map t.model.qualifiedName).Nodup ∧
      result.renamed = [] ∧ ∀ r ∈ result.records, r.deleted = false → ∃ w m' name,
        r.wrapper = some w ∧ p.met? s r.candidate.prop = some m' ∧
        r.candidate.derivedName? p.naming m' = some name ∧
        Naming.IsLeastFree (r.candidate.namesBeside m') name (t.model.decl w).name := by
  obtain ⟨ks, u, v, x, hc, hs, hp, ht, -⟩ := run_ok h
  have hnamed := namedWhenMet_of_choose hm hc hs
  obtain ⟨hk, hu⟩ := choose_ok hc
  obtain ⟨y, ns, hy, hv⟩ := synthesizeAll_ok hs
  obtain ⟨hrs, hsyn⟩ := synthesizing_of_linked hm hc (List.prefix_refl ks) hy
  have hnone : ∀ r ∈ result.records, r.candidate.directive.className = none := fun r hr =>
    hnames _ (hk ▸ hrs ▸ List.mem_map_of_mem hr)
  obtain ⟨hconf, hn⟩ := hsyn.confines (hu ▸ hm) (hu ▸ ha) hescapes hnone
  have hnodup : (v.model.walk.map v.model.qualifiedName).Nodup := by
    rw [hv]
    exact (hconf.advanced.linked.perm_walk.map _).nodup_iff.mpr hn
  rw [placeClasses_of_nodup hnodup, EStateM.Result.ok.injEq] at hp
  obtain ⟨hrenamed, rfl⟩ := hp
  rw [ht]
  refine ⟨synthesized?_eq_some hc hs, hnodup, hrenamed.symm, fun r hr hdel => ?_⟩
  obtain ⟨m', plan, w, hr'⟩ := hnamed r hr hdel
  obtain ⟨name, hname, hfree⟩ := hr'.planned.leastFree (hnone r hr)
  exact ⟨w, m', name, hr'.wrapper, hr'.met, hname, hr'.name ▸ hfree⟩

/-- Orders and invoices with items, and a class of the name that is derived first. -/
def invoicedItems : Value :=
  .object [("package", .text "shop"), ("classes", .list [
    .object [("name", .text "Order"), ("properties", .list [
      .object [("name", .text "item"), ("repeated", .bool true)]])],
    .object [("name", .text "Invoice"), ("properties", .list [
      .object [("name", .text "item"), ("repeated", .bool true)],
      .object [("name", .text "note"), ("repeated", .bool true),
        ("customization", .object [("nested", .bool true)])]])],
    .object [("name", .text "Items")]])]

theorem derived_of_invoicedItems_run : ∃ m result t, Model.ofValue invoicedItems = .ok m ∧
    (⟨{}, none, {}⟩ : Pass).run.run { model := m } = .ok result t ∧ m.ToldApart ∧
      (∀ k ∈ Customization.candidates ⟨{}, none⟩ m, k.directive.className = none) ∧
      result.wrappers.map t.model.qualifiedName =
        ["shop.Items1", "shop.Items2", "shop.Invoice.Notes"] ∧
      (⟨{}, none, {}⟩ : Pass).synthesized? { model := m } = some t.model ∧
      (t.model.walk.map t.model.qualifiedName).Nodup ∧
      result.renamed = [] ∧ ∀ r ∈ result.records, r.deleted = false → ∃ w m' name,
        r.wrapper = some w ∧
        (⟨{}, none, {}⟩ : Pass).met? { model := m } r.candidate.prop = some m' ∧
        r.candidate.derivedName? {} m' = some name ∧
        Naming.IsLeastFree (r.candidate.namesBeside m') name (t.model.decl w).name := by
  obtain ⟨m, result, t, hm, hr, ha, hnames, hwrappers⟩ :=
    exists_run_of_ran? ⟨{}, none, {}⟩ invoicedItems (fun m result t => m.ToldApart ∧
      (∀ k ∈ Customization.candidates ⟨{}, none⟩ m, k.directive.className = none) ∧
      result.wrappers.map t.model.qualifiedName =
        ["shop.Items1", "shop.Items2", "shop.Invoice.Notes"]) (by decide +kernel)
  exact ⟨m, result, t, hm, hr, ha, hnames, hwrappers, derived_of_run (p := ⟨{}, none, {}⟩)
    (s := { model := m }) (Model.described_ofValue hm).toLinked ha rfl hnames hr⟩

/-- Two classes with items, one without a package and one in the empty package. -/
def unpackagedItems : Value :=
  let properties := ("properties", .list [
    .object [("name", .text "item"), ("repeated", .bool true)]])
  .object [("classes", .list [
    .object [("name", .text "A"), ("package", .null), properties],
    .object [("name", .text "B"), properties]])]

/-- A missing package is not the empty one, but is written like it. -/
theorem renamed_beside_unpackaged : ¬ ∀ (p : Pass) (s t : PassState) (result : PassResult),
    s.model.Linked → s.model.NamedApart → p.naming.escapes = Naming.defaultEscapes →
    (∀ k ∈ Customization.candidates ⟨p.options, p.control⟩ s.model,
      k.directive.className = none) →
    p.run.run s = .ok result t → result.renamed = [] := by
  intro claim
  obtain ⟨m, result, t, hm, hr, ha, hnames, hrenamed⟩ :=
    exists_run_of_ran? ⟨{}, none, {}⟩ unpackagedItems (fun m result t => m.NamedApart ∧
      (∀ k ∈ Customization.candidates ⟨{}, none⟩ m, k.directive.className = none) ∧
      result.renamed.map t.model.qualifiedName = ["Items1"]) (by decide +kernel)
  rw [claim ⟨{}, none, {}⟩ { model := m } t result (Model.described_ofValue hm).toLinked ha rfl
    hnames hr] at hrenamed
  cases hrenamed

end Pass
end Enfold
