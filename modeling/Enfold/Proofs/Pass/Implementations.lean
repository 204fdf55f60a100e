import Enfold.Proofs.Model.Implementations
import Enfold.Proofs.Pass.Derived
import Enfold.Proofs.Pass.Factories
import Enfold.Proofs.Pass.Precedence

/-! # Implementations after a run

A wrapper is implemented in the package of the implementation of its owner, under its own name. The
names of wrappers are only told apart beside each other, so wrappers in different places can come to
share an implementation, and a wrapper can come to share that of a class that was there. A renaming
takes an implementation along without asking who has the new one.
-/

namespace Enfold

open PassM

variable {n : Naming} {m m' m'' : Model} {s t u : PassState} {k : Candidate} {r : Record}
  {rs : List Record} {c d w : ClassId} {q : PropertyId} {plan : WrapperPlan} {i : String}
  {ws cs : List ClassId}

namespace Model

def SharesImplementation (m : Model) (c d : ClassId) : Prop :=
  m.isImplemented c = true ∧ (m.decl c).implementation = (m.decl d).implementation

instance (m : Model) (c d : ClassId) : Decidable (m.SharesImplementation c d) :=
  inferInstanceAs (Decidable (_ ∧ _))

theorem isImplemented_iff :
    m.isImplemented c = true ↔ ∃ i, i ≠ "" ∧ (m.decl c).implementation = some i := by
  rw [isImplemented, Option.isSome_iff_exists]
  simp [Option.filter_eq_some_iff, and_comm]

theorem SharesImplementation.symm (h : m.SharesImplementation c d) :
    m.SharesImplementation d c := by
  obtain ⟨i, hi, himpl⟩ := isImplemented_iff.mp h.1
  exact ⟨isImplemented_iff.mpr ⟨i, hi, h.2 ▸ himpl⟩, h.2.symm⟩

/-- Two classes nested in one class, or at the top of one package. -/
def Beside (m : Model) (c d : ClassId) : Prop :=
  (m.decl c).parent = (m.decl d).parent ∧ (m.decl c).package = (m.decl d).package

theorem qualifiedName_eq_of_beside (hm : m.Linked) (h : m.Beside c d)
    (hname : (m.decl c).name = (m.decl d).name) : m.qualifiedName c = m.qualifiedName d := by
  cases hp : (m.decl c).parent with
  | none =>
    rw [qualifiedName_of_root hp, qualifiedName_of_root (h.1.symm.trans hp), h.2, hname]
  | some b =>
    rw [qualifiedName_of_parent hm hp, qualifiedName_of_parent hm (h.1.symm.trans hp), hname]

/-- The implementation that a wrapper of some name gets from its owner. -/
def implementationUnder (m : Model) (owner : ClassId) (name : String) : Option String :=
  ((m.decl owner).implementation.filter (· ≠ "")).map fun i =>
    besideLast i (implementationName name)

def implementationFollowed (m : Model) (c : ClassId) (name : String) : Option String :=
  (m.decl c).implementation.map (followedImplementation (m.decl c).name name)

theorem map_followed_implementationUnder {old : String} (hold : Pointless old) (new : String) :
    (m.implementationUnder c old).map (followedImplementation old new) =
      m.implementationUnder c new := by
  rw [implementationUnder, implementationUnder]
  cases (m.decl c).implementation.filter (· ≠ "") with
  | none => rfl
  | some i =>
    rw [Option.map_some, Option.map_some, Option.map_some, followedImplementation_besideLast hold]

theorem FilesOnly.mono (h : m.FilesOnly ws) (hs : ws ⊆ cs)
    (hf : ∀ p key i, m'.filedAs? p key = some i → m.filedAs? p key = some i)
    (hd : ∀ w ∈ ws, m'.qualifiedName w = m.qualifiedName w ∧
      (m'.decl w).package = (m.decl w).package ∧
        (m'.decl w).implementation = (m.decl w).implementation) : m'.FilesOnly cs := by
  intro p key i hi
  obtain ⟨hne, w, hw, hp, hq, himpl⟩ := h p key i (hf p key i hi)
  obtain ⟨hq', hp', himpl'⟩ := hd w hw
  exact ⟨hne, w, hs hw, hp'.trans hp, hq'.trans hq, himpl'.trans himpl⟩

end Model

theorem implementedWrappers_subset (m : Model) (rs : List Record) :
    implementedWrappers m rs ⊆ wrappersOf rs :=
  (List.filter_sublist.filterMap _).subset

/-! ### Wrapping -/

/-- Each wrapper has the implementation that its owner gives, and no other class is filed. -/
structure Equipped (m : Model) (rs : List Record) (m' : Model) : Prop extends
    Advanced m rs m' where
  wrapper : ∀ r ∈ rs, r.deleted = false → ∃ w, r.wrapper = some w ∧
    w.index < m'.classes.size ∧
      (m'.decl w).implementation = m.implementationUnder r.candidate.owner (m'.decl w).name
  keyedOnce : m'.KeyedOnce
  filesOnly : m'.FilesOnly (implementedWrappers m rs)

namespace Equipped

theorem start (hm : m.Linked) (hf : m.factories = []) : Equipped m [] m where
  toAdvanced := .start hm
  wrapper _ h := nomatch h
  keyedOnce p f h := by
    rw [hf] at h
    cases h
  filesOnly p key i h := by
    rw [Model.filedAs?, hf] at h
    cases h

theorem drop (h : Equipped m rs m') (hk : r.candidate.Fresh m rs) (hd : r.deleted = true) :
    Equipped m (rs ++ [r]) (m'.unlink r.candidate.owner r.candidate.prop) where
  toAdvanced := h.toAdvanced.drop hk hd
  wrapper r' hr hd' := by
    have hr : r' ∈ rs := by
      refine (List.mem_append.mp hr).resolve_right fun e => ?_
      rw [List.mem_singleton.mp e, hd] at hd'
      cases hd'
    obtain ⟨w, hw, hlt, himpl⟩ := h.wrapper r' hr hd'
    obtain ⟨_, hdecl⟩ := Model.exists_decl_unlink (h.stands hk) w
    exact ⟨w, hw, by simpa using hlt, by rw [hdecl, himpl]⟩
  keyedOnce := h.keyedOnce
  filesOnly := by
    refine h.filesOnly.mono ?_ (fun _ _ _ hi => hi) fun w _ => ?_
    · rw [implementedWrappers_append]
      exact List.subset_append_left _ _
    · obtain ⟨_, hdecl⟩ := Model.exists_decl_unlink (h.stands hk) w
      exact ⟨Model.qualifiedName_unlink (h.stands hk) w, by rw [hdecl], by rw [hdecl]⟩

theorem wrap (h : Equipped m rs m') (hk : r.candidate.Fresh m rs) (hd : r.deleted = false)
    (hrw : r.wrapper = some w) (hw : m'.Wraps r.candidate plan m'' w q)
    (hi : m'.Implements r.candidate m'' w q (m''.implementationBeside r.candidate.owner w)) :
    Equipped m (rs ++ [r]) m'' := by
  have hadvanced := h.toAdvanced.wrap hd hrw hw
  have ho := Model.class_lt_of_mem hk.mem
  have himpl : m''.implementationBeside r.candidate.owner w =
      m.implementationUnder r.candidate.owner (m''.decl w).name := by
    obtain ⟨_, -, hdecl⟩ := hadvanced.decl ho
    rw [Model.implementationBeside, hdecl, Model.implementationUnder]
  refine { toAdvanced := hadvanced, wrapper := fun r' hr hd' => ?_,
           keyedOnce := hi.keyedOnce h.keyedOnce, filesOnly := fun p key j hj => ?_ }
  · rcases List.mem_append.mp hr with hr | hr
    · obtain ⟨v, hv, hlt, hvi⟩ := h.wrapper r' hr hd'
      refine ⟨v, hv, hw.lt_size hlt, ?_⟩
      rw [(hw.old_eq h.linked hlt).2.2, hvi, (hw.sameBeside (hw.ne_of_lt hlt)).1]
    · obtain rfl := List.mem_singleton.mp hr
      exact ⟨w, hrw, hw.wrapper_lt, hi.implementation.trans himpl⟩
  · have hold : m'.FilesOnly (implementedWrappers m rs) := h.filesOnly
    rw [implementedWrappers_append]
    rw [hi.entry] at hj
    have hkept : m'.filedAs? p key = some j → j ≠ "" ∧ ∃ v ∈ implementedWrappers m rs ++
        (if m.isImplemented r.candidate.owner then wrappersOf [r] else []),
          (m''.decl v).package = p ∧ m''.qualifiedName v = key ∧
            (m''.decl v).implementation = some j := by
      intro hj
      obtain ⟨hne, v, hv, hp, hq, hvi⟩ := hold p key j hj
      have hlt : v.index < m'.classes.size := by
        exact Model.mem_classIds.mp
          (h.classIds ▸ List.mem_append_right _ (implementedWrappers_subset m rs hv))
      obtain ⟨hq', hp', hvi'⟩ := hw.old_eq h.linked hlt
      exact ⟨hne, v, List.mem_append_left _ hv, hp'.trans hp, hq'.trans hq, hvi'.trans hvi⟩
    split at hj
    · next hself =>
      cases himp : m''.implementationBeside r.candidate.owner w with
      | none =>
        rw [himp] at hj
        exact hkept hj
      | some x =>
        rw [himp] at hj
        obtain rfl : x = j := Option.some.inj hj
        have hsome : m.isImplemented r.candidate.owner = true := by
          obtain ⟨_, -, hdecl⟩ := h.decl ho
          have := hi.isSome_iff
          rw [himp, Model.isImplemented, hdecl] at this
          exact this.symm
        refine ⟨fun e => hi.ne_empty (himp.trans (by rw [e])), w, ?_, hself.1.symm, hself.2.symm,
          hi.implementation.trans himp⟩
        simp [hsome, wrappersOf, hd, hrw]
    · exact hkept hj

end Equipped

theorem Synthesizing.equipped (h : Synthesizing n s rs t) (hm : s.model.Linked)
    (hf : s.model.factories = []) : Equipped s.model rs t.model := by
  induction h with
  | start => exact .start hm hf
  | @step rs t u r _ hk hs ih =>
    have hmem := ih.stands hk
    rcases Candidate.synthesize_ok ih.linked hmem hs with h | ⟨plan, w, q, h⟩
    · obtain ⟨w, -, hr⟩ := h.inherited
      rw [h.model]
      exact ih.drop hk (by rw [hr])
    · exact ih.wrap hk (by rw [h.record]) (by rw [h.record]) (h.wraps ih.linked hmem)
        (h.implements ih.linked hmem)

/-! ### Placement -/

/-- The implementation of a renamed class gets its number as well. -/
theorem placeClasses_implementation (hm : s.model.Linked)
    (hp : (placeClasses n).run s = .ok cs t) (hc : c ∈ cs) :
    (t.model.decl c).implementation = s.model.implementationFollowed c (t.model.decl c).name ∧
      ((t.model.decl c).name = (s.model.decl c).name ∨
        ∃ i : Nat, (t.model.decl c).name = (s.model.decl c).name ++ toString i) := by
  refine (placeClasses_inv (fun renamed m => (∀ d, d ∉ renamed → m.decl d = s.model.decl d) ∧
    ∀ d ∈ renamed, (m.decl d).implementation = s.model.implementationFollowed d (m.decl d).name ∧
      ((m.decl d).name = (s.model.decl d).name ∨
        ∃ i : Nat, (m.decl d).name = (s.model.decl d).name ++ toString i))
    hm ⟨fun _ _ => rfl, by simp⟩ ?_ hp).2 c hc
  rintro renamed m c name hr hfresh ⟨hsame, hrenamed⟩
  have hother {d : ClassId} (hd : d ≠ c) : (m.renameClass c name).decl d = m.decl d :=
    (m.relabelled_renameClass c name).decl_eq d (by simpa using hd)
  refine ⟨fun d hd => ?_, fun d hd => ?_⟩
  · rw [List.mem_append, List.mem_singleton, not_or] at hd
    rw [hother hd.2, hsame d hd.1]
  · by_cases hdc : d = c
    · subst hdc
      rw [Model.implementation_renameClass_self hr.lt, Model.name_renameClass hr.lt,
        Model.implementationFollowed, ← hsame d hfresh]
      exact ⟨rfl, hr.numbered⟩
    · rw [hother hdc]
      exact hrenamed d ((List.mem_append.mp hd).resolve_right (by simpa using hdc))

theorem Claimed.name_ne {done rest : List ClassId} {a b : PlacementState}
    (h : Claimed s.model done a.claimed) (hw : s.model.walk = done ++ c :: rest)
    (hp : (Enfold.placeClass n a c).run s = .ok b t) (hd : d ∈ done) (hb : t.model.Beside c d) :
    (t.model.decl c).name ≠ (t.model.decl d).name := by
  have hnodup := List.nodup_append.mp (hw ▸ Model.nodup_walk h.linked)
  have hdc : d ≠ c := fun e => hnodup.2.2 d hd c List.mem_cons_self e
  rcases placeClass_ok hp with ⟨hq, rfl, rfl⟩ | ⟨hq, hr, rfl⟩
  · intro hname
    refine hq (h.claimed_eq ▸ List.mem_map.mpr ⟨d, hd, ?_⟩)
    exact (Model.qualifiedName_eq_of_beside h.linked hb hname).symm
  · obtain ⟨name, hfree, -, ht⟩ := renameCollision_ok hr
    have hrel := s.model.relabelled_renameClass c name
    have hc : c.index < s.model.classes.size := (Model.mem_walk h.linked).mp (by rw [hw]; simp)
    rw [ht] at hb ⊢
    rw [Model.Beside, (hrel.parent_eq c).1, (hrel.parent_eq d).1, (hrel.parent_eq c).2,
      (hrel.parent_eq d).2] at hb
    rw [Model.name_renameClass hc, hrel.decl_eq d (by simpa using hdc)]
    rintro rfl
    have hscope : s.model.scope d = s.model.scope c := by
      rw [Model.scope, Model.scope, hb.1, hb.2]
    exact hfree (Model.mem_takenBeside_iff.mpr
      (Or.inl ⟨d, by rw [hw]; simp [hd], hscope, hb.1.symm, rfl⟩))

theorem placeClasses_beside (hm : s.model.Linked) (hp : (placeClasses n).run s = .ok cs t) :
    ∀ c ∈ s.model.walk, ∀ d ∈ s.model.walk, t.model.Beside c d →
      (t.model.decl c).name = (t.model.decl d).name → c = d := by
  obtain ⟨b, x, hf, rfl, ht⟩ := placeClasses_ok hp
  rw [ht]
  refine (foldlM_inv (t := x) (fun done a v => (Claimed v.model done a.claimed ∧
    v.model.walk = s.model.walk) ∧ ∀ c ∈ done, ∀ d ∈ done, v.model.Beside c d →
      (v.model.decl c).name = (v.model.decl d).name → c = d)
    ?_ ⟨⟨⟨hm, rfl⟩, rfl⟩, fun _ h => absurd h List.not_mem_nil⟩ hf).2
  rintro done c rest a b v x hsplit ⟨⟨hclaimed, hwalk⟩, hapart⟩ hstep
  have hw := hwalk.trans hsplit
  obtain ⟨hnext, hwalk', -, -⟩ := hclaimed.placeClass hw hstep
  refine ⟨⟨hnext, hwalk'.trans hwalk⟩, ?_⟩
  have hne {d} (hd : d ∈ done) := hclaimed.name_ne hw hstep hd
  have hold {d : ClassId} (hd : d ∈ done) : x.model.decl d = v.model.decl d := by
    have hnodup := List.nodup_append.mp (hw ▸ Model.nodup_walk hclaimed.linked)
    rcases placeClass_ok hstep with ⟨-, rfl, -⟩ | ⟨-, hr, -⟩
    · rfl
    · obtain ⟨name, -, -, hx⟩ := renameCollision_ok hr
      rw [hx, (v.model.relabelled_renameClass c name).decl_eq d]
      simpa using fun e => hnodup.2.2 d hd c List.mem_cons_self e
  intro d hd e he hb hname
  rcases List.mem_append.mp hd with hdone | hlast <;>
    rcases List.mem_append.mp he with hedone | helast
  · rw [hold hdone, hold hedone] at hname
    rw [Model.Beside, hold hdone, hold hedone] at hb
    exact hapart d hdone e hedone hb hname
  · obtain rfl := List.mem_singleton.mp helast
    exact absurd hname.symm (hne hdone ⟨hb.1.symm, hb.2.symm⟩)
  · obtain rfl := List.mem_singleton.mp hlast
    exact absurd hname (hne hedone hb)
  · rw [List.mem_singleton.mp hlast, List.mem_singleton.mp helast]

theorem Model.FilesOnly.placeClasses (h : s.model.FilesOnly ws) (hk : s.model.KeyedOnce)
    (hm : s.model.Linked) (hlt : ∀ w ∈ ws, w.index < s.model.classes.size)
    (hp : (placeClasses n).run s = .ok cs t) (ha : s.model.EntriesApart ws cs) :
    t.model.FilesOnly ws := by
  have hstart : Kept s.model [] [] s.model :=
    ⟨hm, ha.wellNamed, ha.outerApart, .refl _ _, hk, fun _ _ _ _ _ he => he, fun _ h => nomatch h⟩
  refine (placeClasses_inv (fun renamed m => s.model.EntriesApart ws renamed →
    Kept s.model [] renamed m ∧ m.FilesOnly ws) hm (fun _ => ⟨hstart, h⟩) ?_ hp ha).2
  intro renamed m c name hr _ hprev ha
  obtain ⟨hkept, hfiles⟩ := hprev (ha.mono (by simp))
  have hsize := hkept.relabelled.size
  refine ⟨hkept.renameClass hr { ha with alone := fun _ _ _ _ _ h => nomatch h }, ?_⟩
  refine hfiles.renameClass (hr.renames hkept.wellNamed hkept.outerApart) hkept.keyedOnce hr.lt
    (fun w hw => hsize ▸ hlt w hw) ?_
  exact hkept.eq_of_qualifiedName_eq (hsize ▸ hr.lt) hlt (ha.alone c (by simp))

/-! ### Implementations that collide -/

/-- The wrapper of a record was made for an owner with an implementation. -/
structure Record.MadeFor (r : Record) (m : Model) (w : ClassId) (i : String) : Prop where
  deleted : r.deleted = false
  wrapper : r.wrapper = some w
  implementation : (m.decl r.candidate.owner).implementation = some i
  ne_empty : i ≠ ""

/-- How two classes come to share an implementation in a run. -/
inductive Collides (m : Model) (result : PassResult) (m' : Model) : ClassId → ClassId → Prop
  /-- Two wrappers in different places have one name, and the implementations of their owners are in
  one package. -/
  | apart {r r' : Record} {c d : ClassId} {i j : String} (hr : r ∈ result.records)
      (hr' : r' ∈ result.records) (hc : r.MadeFor m c i) (hd : r'.MadeFor m d j)
      (hplace : ¬ m'.Beside c d) (hname : (m'.decl c).name = (m'.decl d).name)
      (hpackage : Model.packagePart i = Model.packagePart j) : Collides m result m' c d
  /-- A class that was there has the implementation that a wrapper gets. -/
  | taken {r : Record} {c d : ClassId} {i : String} (hr : r ∈ result.records)
      (hc : r.MadeFor m c i) (hd : d ∈ m.walk)
      (himpl : (m'.decl d).implementation =
        m.implementationUnder r.candidate.owner (m'.decl c).name) : Collides m result m' c d
  /-- Of two classes that were there one was renamed, and the other has the implementation that
  follows it. -/
  | renamed {c d : ClassId} (hc : c ∈ m.walk) (hd : d ∈ m.walk) (hr : c ∈ result.renamed)
      (hi : m'.isImplemented c = true)
      (himpl : (m'.decl d).implementation = m.implementationFollowed c (m'.decl c).name) :
      Collides m result m' c d

structure Equips (m : Model) (result : PassResult) (m' : Model) : Prop where
  mem_walk_iff : ∀ {c}, c ∈ m'.walk ↔ c ∈ m.walk ∨ c ∈ result.wrappers
  wrapper : ∀ r ∈ result.records, r.deleted = false → ∀ w, r.wrapper = some w →
    (m'.decl w).implementation = m.implementationUnder r.candidate.owner (m'.decl w).name
  old : ∀ c ∈ m.walk, (m'.decl c).implementation =
    if c ∈ result.renamed then m.implementationFollowed c (m'.decl c).name
    else (m.decl c).implementation
  beside : ∀ c ∈ m'.walk, ∀ d ∈ m'.walk, m'.Beside c d →
    (m'.decl c).name = (m'.decl d).name → c = d

namespace Equips

variable {result : PassResult}

theorem implementation_of_madeFor (h : Equips m result m') (hr : r ∈ result.records)
    (hc : r.MadeFor m c i) :
    (m'.decl c).implementation =
      some (Model.besideLast i (Model.implementationName (m'.decl c).name)) := by
  rw [h.wrapper r hr hc.deleted c hc.wrapper, Model.implementationUnder, hc.implementation]
  simp [hc.ne_empty]

theorem exists_madeFor (h : Equips m result m') (hc : c ∈ result.wrappers)
    (himpl : m'.isImplemented c = true) : ∃ r ∈ result.records, ∃ i, r.MadeFor m c i := by
  obtain ⟨r, hr, hdel, hw⟩ := mem_wrappersOf.mp hc
  obtain ⟨j, -, hj⟩ := Model.isImplemented_iff.mp himpl
  rw [h.wrapper r hr hdel c hw, Model.implementationUnder] at hj
  obtain ⟨i, hi, -⟩ := Option.map_eq_some_iff.mp hj
  obtain ⟨hi, hne⟩ := Option.filter_eq_some_iff.mp hi
  exact ⟨r, hr, i, hdel, hw, hi, by simpa using hne⟩

theorem sharesImplementation_of_collides (h : Equips m result m')
    (hc : Collides m result m' c d) : m'.SharesImplementation c d := by
  have implemented {r : Record} {c i} (hr : r ∈ result.records) (hc : r.MadeFor m c i) :
      m'.isImplemented c = true :=
    Model.isImplemented_iff.mpr ⟨_, Model.besideLast_ne_empty _
      (Model.implementationName_ne_empty _), h.implementation_of_madeFor hr hc⟩
  cases hc with
  | apart hr hr' hc hd hplace hname hpackage =>
    refine ⟨implemented hr hc, ?_⟩
    rw [h.implementation_of_madeFor hr hc, h.implementation_of_madeFor hr' hd, hname,
      Model.besideLast_eq, Model.besideLast_eq, hpackage]
  | taken hr hc hd himpl =>
    exact ⟨implemented hr hc, (h.wrapper _ hr hc.deleted _ hc.wrapper).trans himpl.symm⟩
  | renamed hc hd hr hi himpl => exact ⟨hi, by rw [h.old _ hc, if_pos hr, himpl]⟩

/-- Two classes share an implementation exactly if they collide. -/
theorem sharesImplementation_iff (h : Equips m result m')
    (hi : ∀ c ∈ m.walk, ∀ d ∈ m.walk, m.SharesImplementation c d → c = d)
    (hp : ∀ w ∈ result.wrappers, Pointless (m'.decl w).name) (hc : c ∈ m'.walk)
    (hd : d ∈ m'.walk) (hne : c ≠ d) : m'.SharesImplementation c d ↔
      Collides m result m' c d ∨ Collides m result m' d c := by
  constructor
  · intro hs
    rcases h.mem_walk_iff.mp hc with hcm | hcw <;> rcases h.mem_walk_iff.mp hd with hdm | hdw
    · -- Both were there, so they shared nothing until one of them was renamed.
      have hcold := h.old c hcm
      have hdold := h.old d hdm
      split at hcold
      · next hr => exact Or.inl (.renamed hcm hdm hr hs.1 (hs.2.symm.trans hcold))
      split at hdold
      · next hr => exact Or.inr (.renamed hdm hcm hr hs.symm.1 (hs.2.trans hdold))
      refine absurd (hi c hcm d hdm ?_) hne
      rw [Model.SharesImplementation, Model.isImplemented, ← hcold, ← hdold]
      exact hs
    · obtain ⟨r, hr, i, hmade⟩ := h.exists_madeFor hdw hs.symm.1
      exact Or.inr (.taken hr hmade hcm
        (hs.2.trans (h.wrapper r hr hmade.deleted d hmade.wrapper)))
    · obtain ⟨r, hr, i, hmade⟩ := h.exists_madeFor hcw hs.1
      exact Or.inl (.taken hr hmade hdm
        (hs.2.symm.trans (h.wrapper r hr hmade.deleted c hmade.wrapper)))
    · -- The implementations of two wrappers come apart into packages and names.
      obtain ⟨r, hr, i, hmade⟩ := h.exists_madeFor hcw hs.1
      obtain ⟨r', hr', j, hmade'⟩ := h.exists_madeFor hdw hs.symm.1
      have he := hs.2
      rw [h.implementation_of_madeFor hr hmade, h.implementation_of_madeFor hr' hmade',
        Option.some.injEq, Model.besideLast_inj (Model.pointless_implementationName (hp c hcw))
          (Model.pointless_implementationName (hp d hdw)), Model.implementationName_inj] at he
      exact Or.inl (.apart hr hr' hmade hmade' (fun hb => hne (h.beside c hc d hd hb he.2)) he.2
        he.1)
  · rintro (hcd | hdc)
    · exact h.sharesImplementation_of_collides hcd
    · exact (h.sharesImplementation_of_collides hdc).symm

end Equips

namespace Pass

variable {p : Pass} {result : PassResult}

theorem equipped_of_run (hm : s.model.Linked) (hf : s.model.factories = [])
    (h : p.run.run s = .ok result t) : ∃ v x, p.synthesized? s = some v.model ∧
      (placeClasses p.naming).run v = .ok result.renamed x ∧ t.model = x.model ∧
        Equipped s.model result.records v.model := by
  obtain ⟨ks, u, v, x, hc, hs, hp, ht, -⟩ := run_ok h
  obtain ⟨-, hu⟩ := choose_ok hc
  obtain ⟨y, ns, hy, hv⟩ := synthesizeAll_ok hs
  obtain ⟨-, hsyn⟩ := synthesizing_of_linked hm hc (List.prefix_refl ks) hy
  refine ⟨v, x, synthesized?_eq_some hc hs, hp, ht, ?_⟩
  rw [hv]
  exact hu ▸ hsyn.equipped (hu ▸ hm) (hu ▸ hf)

section Run

variable (hm : s.model.Linked) (h : p.run.run s = .ok result t)

include hm h

theorem pointless_of_run (hescapes : p.naming.escapes = Naming.defaultEscapes)
    (hcontrol : ∀ f, p.control = some f → f.IsRead) :
    ∀ w ∈ result.wrappers, Pointless (t.model.decl w).name := by
  intro w hw
  obtain ⟨ks, u, v, x, hc, hs, hp, ht, -⟩ := run_ok h
  obtain ⟨hrs, hv⟩ := advanced_of_choose hm hc hs
  obtain ⟨r, hr, hdel, hrw⟩ := mem_wrappersOf.mp hw
  obtain ⟨m', plan, w', hmet⟩ := namedWhenMet_of_choose hm hc hs r hr hdel
  obtain rfl : w' = w := Option.some.inj (hmet.wrapper.symm.trans hrw)
  have hk : r.candidate ∈ Customization.candidates ⟨p.options, p.control⟩ s.model :=
    (choose_ok hc).1 ▸ hrs ▸ List.mem_map_of_mem hr
  have hplan := hmet.planned.pointless hescapes fun _ => isGivenName_of_candidates hcontrol hk
  rw [← hmet.name] at hplan
  rw [ht]
  by_cases hwr : w' ∈ result.renamed
  · rcases (placeClasses_implementation hv.linked hp hwr).2 with e | ⟨i, e⟩ <;> rw [e]
    · exact hplan
    · exact hplan.append (pointless_toString i)
  · rwa [(placeClasses_relabelled hp).decl_eq w' hwr]

theorem implementation_of_run (hc : c ∈ s.model.walk) :
    (t.model.decl c).implementation =
      if c ∈ result.renamed then s.model.implementationFollowed c (t.model.decl c).name
      else (s.model.decl c).implementation := by
  obtain ⟨v, x, hp, ht, hv⟩ := advanced_of_run hm h
  obtain ⟨ps, -, hdecl⟩ := hv.decl ((Model.mem_walk hm).mp hc)
  rw [ht]
  split
  · next hr => rw [(placeClasses_implementation hv.linked hp hr).1, Model.implementationFollowed,
      hdecl, Model.implementationFollowed]
  · next hr => rw [(placeClasses_relabelled hp).decl_eq c hr, hdecl]

theorem equips_of_run (hf : s.model.factories = [])
    (hpoint : ∀ w ∈ result.wrappers, Pointless (t.model.decl w).name) :
    Equips s.model result t.model := by
  obtain ⟨v, x, -, hp, ht, hv⟩ := equipped_of_run hm hf h
  have hrel := placeClasses_relabelled hp
  refine ⟨mem_walk_iff_of_run hm h, fun r hr hdel w hw => ?_,
    fun c hc => implementation_of_run hm h hc, fun c hc d hd => ?_⟩
  · obtain ⟨w', hw', -, himpl⟩ := hv.wrapper r hr hdel
    obtain rfl : w' = w := Option.some.inj (hw'.symm.trans hw)
    have hname := hpoint w' (mem_wrappersOf.mpr ⟨r, hr, hdel, hw'⟩)
    rw [ht] at hname ⊢
    by_cases hwr : w' ∈ result.renamed
    · obtain ⟨hfollowed, hsame⟩ := placeClasses_implementation hv.linked hp hwr
      have hold : Pointless (v.model.decl w').name := by
        rcases hsame with e | ⟨i, e⟩ <;> rw [e] at hname
        · exact hname
        · exact hname.of_append
      rw [hfollowed, Model.implementationFollowed, himpl,
        Model.map_followed_implementationUnder hold]
    · rw [hrel.decl_eq w' hwr, himpl]
  · rw [ht, hrel.walk_eq] at hc hd
    rw [ht]
    exact placeClasses_beside hv.linked hp c hc d hd

end Run

/-- Nothing but wrappers is filed, if no renamed class has shared their names. -/
theorem filesOnly_of_run (hm : s.model.Linked) (hf : s.model.factories = [])
    (h : p.run.run s = .ok result t) : ∃ m', p.synthesized? s = some m' ∧
      ((result.renamed ≠ [] →
          m'.EntriesApart (implementedWrappers s.model result.records) result.renamed) →
        t.model.FilesOnly (implementedWrappers s.model result.records)) := by
  obtain ⟨v, x, hs, hp, ht, hv⟩ := equipped_of_run hm hf h
  refine ⟨v.model, hs, fun ha => ?_⟩
  rw [ht]
  by_cases hnone : result.renamed = []
  · rw [hnone] at hp
    rw [model_eq_of_placeClasses hv.linked hp]
    exact hv.filesOnly
  · refine hv.filesOnly.placeClasses hv.keyedOnce hv.linked (fun w hw => ?_) hp (ha hnone)
    refine (Model.mem_walk hv.linked).mp ((hv.mem_walk_iff hm).mpr (Or.inr ?_))
    exact implementedWrappers_subset _ _ hw

/-- Implementations that are distinct before a run stay so, unless classes collide. -/
theorem implementations_of_run (hm : s.model.Linked) (hf : s.model.factories = [])
    (hi : ∀ c ∈ s.model.walk, ∀ d ∈ s.model.walk, s.model.SharesImplementation c d → c = d)
    (h : p.run.run s = .ok result t) :
    (p.naming.escapes = Naming.defaultEscapes →
        (∀ f, p.control = some f → f.IsRead) →
        ∀ w ∈ result.wrappers, Pointless (t.model.decl w).name) ∧
      (∀ c ∈ s.model.walk, (t.model.decl c).implementation =
        if c ∈ result.renamed then s.model.implementationFollowed c (t.model.decl c).name
        else (s.model.decl c).implementation) ∧
      ((∀ w ∈ result.wrappers, Pointless (t.model.decl w).name) →
        (∀ r ∈ result.records, r.deleted = false → ∀ w, r.wrapper = some w →
          (t.model.decl w).implementation =
            s.model.implementationUnder r.candidate.owner (t.model.decl w).name) ∧
        ∀ c ∈ t.model.walk, ∀ d ∈ t.model.walk, c ≠ d → (t.model.SharesImplementation c d ↔
          Collides s.model result t.model c d ∨ Collides s.model result t.model d c)) ∧
      ∃ m', p.synthesized? s = some m' ∧
        ((result.renamed ≠ [] →
            m'.EntriesApart (implementedWrappers s.model result.records) result.renamed) →
          ∀ p key p' key' i, t.model.filedAs? p key = some i → t.model.filedAs? p' key' = some i →
            ∃ c ∈ result.wrappers, ∃ d ∈ result.wrappers,
              ((t.model.decl c).package = p ∧ t.model.qualifiedName c = key) ∧
              ((t.model.decl d).package = p' ∧ t.model.qualifiedName d = key') ∧
              t.model.SharesImplementation c d) := by
  refine ⟨pointless_of_run hm h, fun c hc => implementation_of_run hm h hc, fun hpoint => ?_, ?_⟩
  · have heq := equips_of_run hm h hf hpoint
    exact ⟨heq.wrapper, fun c hc d hd hne => heq.sharesImplementation_iff hi hpoint hc hd hne⟩
  · obtain ⟨m', hs, hfiles⟩ := filesOnly_of_run hm hf h
    refine ⟨m', hs, fun ha p key p' key' i hkey hkey' => ?_⟩
    obtain ⟨hne, c, hc, hpc, hqc, himpl⟩ := hfiles ha p key i hkey
    obtain ⟨-, d, hd, hpd, hqd, himpl'⟩ := hfiles ha p' key' i hkey'
    exact ⟨c, implementedWrappers_subset _ _ hc, d, implementedWrappers_subset _ _ hd, ⟨hpc, hqc⟩,
      ⟨hpd, hqd⟩, Model.isImplemented_iff.mpr ⟨i, hne, himpl⟩, himpl.trans himpl'.symm⟩

/-- Nested notes with one implementation, and items that have to be renamed. -/
def implementedNotes : Value :=
  .object [("package", .text "shop"), ("classes", .list [
    .object [("name", .text "Items")],
    .object [("name", .text "Order"), ("implementation", .text "shop.impl.OrderImpl"),
      ("properties", .list [
        .object [("name", .text "item"), ("repeated", .bool true),
          ("customization", .object [("class", .text "Items")])],
        .object [("name", .text "note"), ("repeated", .bool true),
          ("customization", .object [("nested", .bool true)])]])],
    .object [("name", .text "Invoice"), ("implementation", .text "shop.impl.InvoiceImpl"),
      ("properties", .list [
        .object [("name", .text "note"), ("repeated", .bool true),
          ("customization", .object [("nested", .bool true)])]])]])]

theorem implementations_of_implementedNotes_run : ∃ m result t m',
    Model.ofValue implementedNotes = .ok m ∧
    (⟨{}, none, {}⟩ : Pass).run.run { model := m } = .ok result t ∧
      (⟨{}, none, {}⟩ : Pass).synthesized? { model := m } = some m' ∧
      t.model.walk.map (fun c => (t.model.qualifiedName c, (t.model.decl c).implementation)) =
        [("shop.Items", none), ("shop.Order", some "shop.impl.OrderImpl"),
          ("shop.Order.Notes", some "shop.impl.NotesImpl"),
          ("shop.Invoice", some "shop.impl.InvoiceImpl"),
          ("shop.Invoice.Notes", some "shop.impl.NotesImpl"),
          ("shop.Items1", some "shop.impl.Items1Impl")] ∧
      (∀ c ∈ m.walk, (t.model.decl c).implementation =
        if c ∈ result.renamed then m.implementationFollowed c (t.model.decl c).name
        else (m.decl c).implementation) ∧
      (∀ r ∈ result.records, r.deleted = false → ∀ w, r.wrapper = some w →
        (t.model.decl w).implementation =
          m.implementationUnder r.candidate.owner (t.model.decl w).name) ∧
      (∀ c ∈ t.model.walk, ∀ d ∈ t.model.walk, c ≠ d → (t.model.SharesImplementation c d ↔
        Collides m result t.model c d ∨ Collides m result t.model d c)) ∧
      ∀ p key p' key' i, t.model.filedAs? p key = some i → t.model.filedAs? p' key' = some i →
        ∃ c ∈ result.wrappers, ∃ d ∈ result.wrappers,
          ((t.model.decl c).package = p ∧ t.model.qualifiedName c = key) ∧
          ((t.model.decl d).package = p' ∧ t.model.qualifiedName d = key') ∧
          t.model.SharesImplementation c d := by
  obtain ⟨m, result, t, hm, hr, hi, himpl, hapart⟩ := exists_run_of_ran? ⟨{}, none, {}⟩
    implementedNotes (fun m result t =>
      (∀ c ∈ m.walk, ∀ d ∈ m.walk, m.SharesImplementation c d → c = d) ∧
      t.model.walk.map (fun c => (t.model.qualifiedName c, (t.model.decl c).implementation)) =
        [("shop.Items", none), ("shop.Order", some "shop.impl.OrderImpl"),
          ("shop.Order.Notes", some "shop.impl.NotesImpl"),
          ("shop.Invoice", some "shop.impl.InvoiceImpl"),
          ("shop.Invoice.Notes", some "shop.impl.NotesImpl"),
          ("shop.Items1", some "shop.impl.Items1Impl")] ∧
      ∀ m' ∈ (⟨{}, none, {}⟩ : Pass).synthesized? { model := m },
        m'.EntriesApart (implementedWrappers m result.records) result.renamed) (by decide +kernel)
  have hd := Model.described_ofValue hm
  obtain ⟨hpoint, hold, hwrapper, m', hs, hfiled⟩ := implementations_of_run (p := ⟨{}, none, {}⟩)
    (s := { model := m }) hd.toLinked hd.factories hi hr
  obtain ⟨hunder, hiff⟩ := hwrapper (hpoint rfl (by simp))
  exact ⟨m, result, t, m', hm, hr, hs, himpl, hold, hunder, hiff, hfiled fun _ => hapart m' hs⟩

/-- So implementations that were distinct need not stay so. -/
theorem implementation_shared : ¬ ∀ (v : Value) (p : Pass) (s t : PassState) (result : PassResult),
    Model.ofValue v = .ok s.model → s.model.factories = [] →
    (∀ c ∈ s.model.walk, ∀ d ∈ s.model.walk, s.model.SharesImplementation c d → c = d) →
    p.run.run s = .ok result t →
      ∀ c ∈ t.model.walk, ∀ d ∈ t.model.walk, t.model.SharesImplementation c d → c = d := by
  intro claim
  obtain ⟨m, result, t, hm, hr, hi, c, hc, d, hd, hs, hne⟩ := exists_run_of_ran? ⟨{}, none, {}⟩
    implementedNotes (fun m _ t =>
      (∀ c ∈ m.walk, ∀ d ∈ m.walk, m.SharesImplementation c d → c = d) ∧
      ∃ c ∈ t.model.walk, ∃ d ∈ t.model.walk, t.model.SharesImplementation c d ∧ c ≠ d)
    (by decide +kernel)
  have hf := (Model.described_ofValue hm).factories
  exact hne (claim implementedNotes _ { model := m } t result hm hf hi hr c hc d hd hs)

end Pass
end Enfold
