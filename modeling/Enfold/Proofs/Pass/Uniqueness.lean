import Enfold.Proofs.Customization.Given
import Enfold.Proofs.Pass.Run

/-! # No two classes share a name

Placement keeps the names that were claimed apart, and no later renaming reaches a class that has
claimed its name. Of the classes that share a name when one of them is visited, the first in the
walk has claimed it or is about to.
-/

namespace Enfold

open PassM

variable {n : Naming} {m m' : Model} {s t : PassState} {c d : ClassId} {a b : PlacementState}
  {done rest : List ClassId} {claimed : List String}

/-! ### A free name gives a free qualified name -/

theorem mem_filterMap_local (start : String) {name : String} : name ∈ (claimed.filterMap fun q =>
      if start.toList.isPrefixOf q.toList && !(q.toList.drop start.toList.length).contains '.' then
        some (String.ofList (q.toList.drop start.toList.length)) else none) ↔
    start ++ name ∈ claimed ∧ Pointless name := by
  rw [List.mem_filterMap]
  constructor
  · rintro ⟨q, hq, h⟩
    split at h
    · next hp =>
      cases h
      simp only [Bool.and_eq_true, List.isPrefixOf_iff_prefix, Bool.not_eq_true',
        List.contains_eq_mem, decide_eq_false_iff_not] at hp
      obtain ⟨⟨rest, hrest⟩, hpoint⟩ := hp
      rw [← hrest, List.drop_left] at hpoint ⊢
      have : q = start ++ String.ofList rest := String.toList_inj.mp (by simp [hrest])
      exact ⟨this ▸ hq, by simpa [Pointless] using hpoint⟩
    · cases h
  · rintro ⟨hq, hn⟩
    refine ⟨_, hq, ?_⟩
    rw [String.toList_append, List.drop_left]
    simpa [Pointless] using hn

/-- Names are taken by classes beside, or claimed in the scope. -/
theorem Model.mem_takenBeside_iff {name : String} : name ∈ m.takenBeside c claimed ↔
    (∃ d ∈ m.walk, m.scope d = m.scope c ∧ (m.decl d).parent = (m.decl c).parent ∧
      (m.decl d).name = name) ∨ m.stem c ++ name ∈ claimed ∧ Pointless name := by
  unfold takenBeside stem
  dsimp only
  rw [List.mem_append, List.mem_map]
  refine or_congr (by simp [and_assoc]) ?_
  cases (m.scope c).filter (· ≠ "") with
  | none => exact mem_filterMap_local ""
  | some scope => exact mem_filterMap_local (scope ++ ".")

/-- The classes that have claimed their names, which are settled and all distinct. -/
structure Placed (m : Model) (done : List ClassId) (claimed : List String) : Prop
    extends Claimed m done claimed where
  wellNamed : m.WellNamed
  nodup : claimed.Nodup

theorem Model.WellNamed.renameClass (hw : m.WellNamed) {name : String}
    (hname : name = (m.decl c).name ∨ ∃ i : Nat, name = (m.decl c).name ++ toString i)
    (hc : c.index < m.classes.size) : (m.renameClass c name).WellNamed := by
  have hr := m.relabelled_renameClass c name
  have hself := Model.name_renameClass hc name
  have hother {d : ClassId} (hd : d ≠ c) : (m.renameClass c name).decl d = m.decl d :=
    hr.decl_eq d (by simpa using hd)
  constructor
  · intro d
    by_cases hd : d = c
    · rw [hd, hself]
      rcases hname with rfl | ⟨i, rfl⟩
      · exact hw.pointless c
      · exact (hw.pointless c).append (pointless_toString i)
    · rw [hother hd]
      exact hw.pointless d
  · intro d e he
    have hne := hw.parent_ne ((hr.parent_eq e).1 ▸ he)
    by_cases hd : d = c
    · subst hd
      rw [hself]
      rcases hname with rfl | ⟨i, rfl⟩
      · exact hne
      · exact fun h => hne (String.append_eq_empty_iff.mp h).1
    · rwa [hother hd]

namespace Placed

theorem nodup_append {name : String} (h : Placed m done claimed) (hq : name ∉ claimed) :
    (claimed ++ [name]).Nodup :=
  List.nodup_append.mpr ⟨h.nodup, List.nodup_singleton _, fun _ hx _ hy e =>
    hq (List.mem_singleton.mp hy ▸ e ▸ hx)⟩

theorem notMem_renameClass (h : Placed m done claimed) {name : String}
    (hw : m.walk = done ++ c :: rest) (hfree : name ∉ m.takenBeside c claimed)
    (hname : name = (m.decl c).name ∨ ∃ i : Nat, name = (m.decl c).name ++ toString i) :
    (m.renameClass c name).WellNamed ∧ (m.renameClass c name).qualifiedName c ∉ claimed := by
  have hr := m.relabelled_renameClass c name
  have hc : c.index < m.classes.size := (Model.mem_walk h.linked).mp (by simp [hw])
  have hwn := h.wellNamed.renameClass hname hc
  refine ⟨hwn, ?_⟩
  have hstem : (m.renameClass c name).stem c = m.stem c := by
    unfold Model.stem Model.scope
    rw [(hr.parent_eq c).1, (hr.parent_eq c).2]
    cases hp : (m.decl c).parent with
    | none => rfl
    | some b =>
      -- What the class is nested in was visited before it.
      have hb : b ∈ done := by
        have hw' : m.walk = (done ++ [c]) ++ rest := by simp [hw]
        rcases List.mem_append.mp
          (Model.parent_mem_of_walk_eq h.linked hw' (by simp) hp) with hb | hb
        · exact hb
        · rw [List.mem_singleton.mp hb] at hp
          exact absurd (h.linked.parent_lt hp) (Nat.lt_irrefl _)
      dsimp only
      rw [h.linked.qualifiedName_renameClass hw name hb]
  rw [Model.qualifiedName_eq_stem (hr.linked h.linked) hwn, hstem, Model.name_renameClass hc]
  intro hm
  have hp := hwn.pointless c
  rw [Model.name_renameClass hc] at hp
  exact hfree (Model.mem_takenBeside_iff.mpr (Or.inr ⟨hm, hp⟩))

theorem placeClass (h : Placed s.model done a.claimed) (hw : s.model.walk = done ++ c :: rest)
    (hp : (placeClass n a c).run s = .ok b t) : Placed t.model (done ++ [c]) b.claimed := by
  refine { (h.toClaimed.placeClass hw hp).1 with wellNamed := ?_, nodup := ?_ }
  all_goals rcases placeClass_ok hp with ⟨hq, rfl, rfl⟩ | ⟨hq, hr, rfl⟩
  · exact h.wellNamed
  · obtain ⟨name, hfree, hname, ht⟩ := renameCollision_ok hr
    exact ht ▸ (h.notMem_renameClass hw hfree hname).1
  · exact h.nodup_append hq
  · obtain ⟨name, hfree, hname, ht⟩ := renameCollision_ok hr
    exact ht ▸ h.nodup_append (h.notMem_renameClass hw hfree hname).2

theorem foldlM {later : List ClassId} (h : Placed s.model done a.claimed)
    (hw : s.model.walk = done ++ (rest ++ later))
    (hp : (rest.foldlM (Enfold.placeClass n) a).run s = .ok b t) :
    Placed t.model (done ++ rest) b.claimed := by
  induction rest generalizing done a s with
  | nil =>
    cases hp
    simpa using h
  | cons c rest ih =>
    rw [List.foldlM_cons] at hp
    obtain ⟨x, u, hc, hp⟩ := bind_eq_ok.mp hp
    obtain ⟨-, hwalk, -, -⟩ := h.toClaimed.placeClass hw hc
    simpa using ih (h.placeClass hw hc) (by rw [hwalk, hw]; simp) hp

end Placed

/-- The first class of a name that placement has reached ends with it. -/
theorem Claimed.first_keeps (h : Claimed s.model done a.claimed)
    (hw : s.model.walk = done ++ c :: rest)
    (hp : ((c :: rest).foldlM (Enfold.placeClass n) a).run s = .ok b t) :
    ∃ d, s.model.findClass? (s.model.qualifiedName c) = some d ∧
      t.model.qualifiedName d = s.model.qualifiedName c := by
  obtain ⟨-, -, hkeep, -⟩ := h.foldlM (by rw [hw, List.append_nil]) hp
  unfold Model.findClass?
  rw [hw]
  cases hf : done.find? fun d => s.model.qualifiedName d = s.model.qualifiedName c with
  | some d =>
    refine ⟨d, by rw [List.find?_append, hf]; rfl, ?_⟩
    rw [hkeep d (List.mem_of_find?_eq_some hf)]
    simpa using List.find?_some hf
  | none =>
    refine ⟨c, by rw [List.find?_append, hf]; simp, h.qualifiedName_eq hw ?_ hp⟩
    rw [h.claimed_eq, List.mem_map]
    rintro ⟨d, hd, e⟩
    exact absurd e (by simpa using List.find?_eq_none.mp hf d hd)

/-! ### The names of wrappers -/

theorem pointless_wrapperClassName (hn : n.escapes = Naming.defaultEscapes) {element name : String}
    {plural : Bool} {explicit : Option String}
    (he : ∀ x, explicit = some x → isGivenName x = true)
    (h : n.wrapperClassName element plural explicit = .ok name) : Pointless name := by
  unfold Naming.wrapperClassName at h
  rw [hn] at h
  split at h
  · next x hx =>
    cases h
    have := (Option.filter_eq_some_iff.mp hx).1
    exact pointless_apply (pointless_of_isGivenName (he x this))
  · obtain ⟨x, -, rfl⟩ := exceptMap_eq_ok.mp h
    exact pointless_of_isIdentifierChar fun _ => Naming.isIdentifierChar_of_mem_sanitize

theorem Candidate.Planned.pointless {k : Candidate} {plan : WrapperPlan}
    (h : k.Planned n m plan) (hn : n.escapes = Naming.defaultEscapes)
    (he : ∀ x, k.directive.className = some x → isGivenName x = true) :
    Pointless plan.className := by
  obtain ⟨s, t, -, hc⟩ := h.className
  unfold claimClassName at hc
  rw [run_get_bind, require_bind_eq_ok] at hc
  obtain ⟨derived, hd, hc⟩ := hc
  have hp := pointless_wrapperClassName hn he hd
  split at hc
  · cases hc
    exact hp
  · obtain ⟨-, -, hname⟩ := claimName_ok hc
    rcases hname with e | ⟨i, e⟩ <;> rw [e]
    · exact hp
    · exact hp.append (pointless_toString i)

theorem Rewriting.wellNamed {rs : List Record} (h : Rewriting n m rs m') (hm : m.Linked)
    (href : ∀ p, (m.prop p).reference = none) (hn : n.escapes = Naming.defaultEscapes)
    (hnames : ∀ c, c.index < m.classes.size → (m.decl c).name ≠ "") (hw : m.WellNamed)
    (hgiven : ∀ r ∈ rs, ∀ x, r.candidate.directive.className = some x → isGivenName x = true) :
    m'.WellNamed := by
  induction h with
  | start => exact hw
  | @drop rs m' r hrun hk hd ih =>
    have ih := ih fun x hx => hgiven x (List.mem_append_left _ hx)
    have hmem := ((hrun.reshaped hm href).mem_of_fresh hm hk).1
    have hsame (d) : ((m'.unlink r.candidate.owner r.candidate.prop).decl d).name =
        (m'.decl d).name ∧ ((m'.unlink r.candidate.owner r.candidate.prop).decl d).parent =
          (m'.decl d).parent := by
      obtain ⟨_, hd⟩ := Model.exists_decl_unlink hmem d
      rw [hd]
      exact ⟨rfl, rfl⟩
    refine ⟨fun c => (hsame c).1 ▸ ih.pointless c, fun {c d} hp => ?_⟩
    rw [(hsame c).1]
    exact ih.parent_ne ((hsame d).2 ▸ hp)
  | @wrap rs m' m'' r w q plan hrun hk hd hrw hrq hp hwraps ih =>
    have hkeep {c} (hc) := (hrun.wrap hk hd hrw hrq hp hwraps).decl_eq hm href (c := c) hc
    have ih := ih fun x hx => hgiven x (List.mem_append_left _ hx)
    obtain ⟨hname, hparent, -⟩ := hwraps.wrapper_decl hp.fits
    refine ⟨fun c => ?_, fun {c d} hpar => ?_⟩
    · by_cases hc : c = w
      · rw [hc, hname]
        exact hp.pointless hn (hgiven r (by simp))
      · rw [(hwraps.sameBeside hc).1]
        exact ih.pointless c
    · by_cases hd : d = w
      · -- A wrapper is nested in the owner of its candidate, if in any class.
        rw [hd, hparent] at hpar
        obtain rfl := Model.eq_owner_of_parent? hpar
        have ho := Model.class_lt_of_mem hk.mem
        obtain ⟨_, hdecl⟩ := hkeep ho
        rw [hdecl]
        exact hnames _ ho
      · have hpar := (hwraps.sameBeside hd).2.1 ▸ hpar
        have hc := (hrun.reshaped hm href).linked.parent_lt_size hpar
        rw [(hwraps.sameBeside (hwraps.ne_of_lt hc)).1]
        exact ih.parent_ne hpar

theorem Rewriting.placed {rs : List Record} (h : Rewriting n m rs m') (hm : m.Linked)
    (href : ∀ p, (m.prop p).reference = none) (hn : n.escapes = Naming.defaultEscapes)
    (hnames : ∀ c ∈ m.walk, (m.decl c).name ≠ "" ∧ Pointless (m.decl c).name)
    (hgiven : ∀ r ∈ rs, ∀ x, r.candidate.directive.className = some x → isGivenName x = true) :
    Placed m' [] [] := by
  have hw : m.WellNamed := by
    refine ⟨fun c => ?_, fun {c d} hp => ?_⟩
    · by_cases hc : c.index < m.classes.size
      · exact (hnames c ((Model.mem_walk hm).mpr hc)).2
      · rw [Model.decl_of_size_le (Nat.le_of_not_lt hc)]
        exact List.not_mem_nil
    · exact (hnames c ((Model.mem_walk hm).mpr (hm.parent_lt_size hp))).1
  have := h.wellNamed hm href hn (fun c hc => (hnames c ((Model.mem_walk hm).mpr hc)).1) hw hgiven
  exact ⟨⟨(h.reshaped hm href).linked, rfl⟩, this, List.nodup_nil⟩

/-! ### Names after a run -/

namespace Pass

variable {p : Pass} {result : PassResult}

def upTo (p : Pass) (c : ClassId) : PassM Unit := do
  let candidates ← p.choose
  discard (synthesizeAll p.naming candidates)
  discard (((← get).model.walk.takeWhile (· ≠ c)).foldlM (placeClass p.naming) {})

/-- The model in which placement reaches a class. -/
def reached? (p : Pass) (s : PassState) (c : ClassId) : Option Model :=
  match (p.upTo c).run s with
  | .ok _ t => some t.model
  | .error _ _ => none

theorem reached?_eq_some {ks : List Candidate} {u v x : PassState} {rs : List Record}
    (hc : p.choose.run s = .ok ks u) (hs : (synthesizeAll p.naming ks).run u = .ok rs v)
    (hw : v.model.walk = done ++ c :: rest) (hd : c ∉ done)
    (hf : (done.foldlM (placeClass p.naming) {}).run v = .ok a x) :
    p.reached? s c = some x.model := by
  have hdone : v.model.walk.takeWhile (· ≠ c) = done := by
    rw [hw, List.takeWhile_append_of_pos, List.takeWhile_cons_of_neg (by simp), List.append_nil]
    intro d hdone
    simpa using fun e : d = c => hd (e ▸ hdone)
  have hrun : (p.upTo c).run s = .ok () x := by
    refine bind_eq_ok.mpr ⟨ks, u, hc, bind_eq_ok.mpr ⟨(), v, ?_, ?_⟩⟩
    · exact bind_eq_ok.mpr ⟨rs, v, hs, rfl⟩
    · rw [run_get_bind, hdone]
      exact bind_eq_ok.mpr ⟨a, x, hf, rfl⟩
  rw [reached?, hrun]

theorem isGivenName_of_candidates
    (hcontrol : ∀ f, p.control = some f → f.IsRead)
    {k : Candidate} (hk : k ∈ Customization.candidates ⟨p.options, p.control⟩ m) {x : String}
    (hx : k.directive.className = some x) : isGivenName x = true := by
  have hsound : Customization.Sound ⟨p.options, p.control⟩ := fun f hf => (hcontrol f hf).sound
  exact (Customization.sound_resolve hsound (Customization.of_mem_candidates hk).2.2.1).1 x hx

section Named

variable {v : Value} (hm : Model.ofValue v = .ok s.model)
  (hnames : ∀ c ∈ s.model.walk, (s.model.decl c).name ≠ "" ∧ Pointless (s.model.decl c).name)
  (hescapes : p.naming.escapes = Naming.defaultEscapes)
  (hcontrol : ∀ f, p.control = some f → f.IsRead)
  (h : p.run.run s = .ok result t)

include hm hnames hescapes hcontrol h

/-- A run places all classes, none of which is placed before. -/
theorem placing_of_run : ∃ ks u v b x, p.choose.run s = .ok ks u ∧
    (synthesizeAll p.naming ks).run u = .ok result.records v ∧ Placed v.model [] [] ∧
      (v.model.walk.foldlM (placeClass p.naming) {}).run v = .ok b x ∧ t.model = x.model := by
  have hd := Model.described_ofValue hm
  obtain ⟨ks, u, v, w, hc, hs, hp, ht, rfl, hks, hr⟩ := run_stages hd h
  obtain ⟨b, x, hf, -, hx⟩ := placeClasses_ok hp
  have hstart := hr.placed hd.toLinked (fun q => (hd.prop q).reference) hescapes hnames
    fun r hmem _ => isGivenName_of_candidates hcontrol
      (hks ▸ List.mem_map_of_mem (f := Record.candidate) hmem)
  exact ⟨_, u, v, b, x, hc, hs, hstart, hf, ht.trans hx⟩

theorem nodup_qualifiedName_of_run : (t.model.walk.map t.model.qualifiedName).Nodup := by
  obtain ⟨-, -, v, b, x, -, -, hstart, hf, ht⟩ :=
    placing_of_run hm hnames hescapes hcontrol h
  have hw₀ : v.model.walk = [] ++ (v.model.walk ++ []) := by simp
  have hend := Placed.foldlM (a := {}) hstart hw₀ hf
  obtain ⟨-, hwalk, -, -⟩ := Claimed.foldlM (a := {}) hstart.toClaimed hw₀ hf
  rw [ht, hwalk]
  exact hend.claimed_eq ▸ hend.nodup

end Named

/-- No two classes have one qualified name, and the first one to be reached keeps it. -/
theorem names_of_run {v : Value} (hm : Model.ofValue v = .ok s.model)
    (hnames : ∀ c ∈ s.model.walk, (s.model.decl c).name ≠ "" ∧ Pointless (s.model.decl c).name)
    (hescapes : p.naming.escapes = Naming.defaultEscapes)
    (hcontrol : ∀ f, p.control = some f → f.IsRead)
    (h : p.run.run s = .ok result t) :
    (t.model.walk.map t.model.qualifiedName).Nodup ∧
      ∀ c ∈ t.model.walk, ∃ m d, p.reached? s c = some m ∧
        m.findClass? (m.qualifiedName c) = some d ∧
          t.model.qualifiedName d = m.qualifiedName c := by
  refine ⟨nodup_qualifiedName_of_run hm hnames hescapes hcontrol h, fun c hcw => ?_⟩
  obtain ⟨ks, u, v, b, x, hc, hs, hstart, hf, ht⟩ :=
    placing_of_run hm hnames hescapes hcontrol h
  have hw₀ : v.model.walk = [] ++ (v.model.walk ++ []) := by simp
  obtain ⟨-, hwalk, -, -⟩ := Claimed.foldlM (a := {}) hstart.toClaimed hw₀ hf
  rw [ht, hwalk] at hcw
  obtain ⟨done, rest, hsplit⟩ := List.append_of_mem hcw
  have hnot : c ∉ done := by
    have hnodup := hsplit ▸ Model.nodup_walk hstart.linked
    exact fun hm => (List.nodup_append.mp hnodup).2.2 c hm c List.mem_cons_self rfl
  rw [hsplit, List.foldlM_append] at hf
  obtain ⟨a, y, hdone, hrest⟩ := bind_eq_ok.mp hf
  obtain ⟨hy, hyw, -, -⟩ := Claimed.foldlM (a := {}) hstart.toClaimed hsplit hdone
  obtain ⟨d, hfirst, hkept⟩ := hy.first_keeps (hyw.trans hsplit) hrest
  exact ⟨y.model, d, reached?_eq_some hc hs hsplit hnot hdone, hfirst, ht ▸ hkept⟩

/-- Two pairs of classes of one name, nested and in a package of that path. -/
def namesakes : Value :=
  .object [("package", .text "p"), ("classes", .list [
    .object [("name", .text "A"), ("nested", .list [
      .object [("name", .text "B")], .object [("name", .text "B")]])],
    .object [("name", .text "B1"), ("package", .text "p.A")],
    .object [("name", .text "B1"), ("package", .text "p.A")]])]

theorem ran?_namesakes : ∃ m result t, (⟨{}, none, {}⟩ : Pass).ran? namesakes = some (m, result, t) ∧
    (∀ c ∈ m.walk, (m.decl c).name ≠ "" ∧ Pointless (m.decl c).name) ∧
      t.model.walk.map t.model.qualifiedName = ["p.A", "p.A.B", "p.A.B1", "p.A.B11", "p.A.B12"] := by
  obtain ⟨⟨m, result, t⟩, h⟩ : ∃ x, (⟨{}, none, {}⟩ : Pass).ran? namesakes = some x :=
    Option.isSome_iff_exists.mp (by decide +kernel)
  have hn : ((⟨{}, none, {}⟩ : Pass).ran? namesakes).map (fun x =>
      (x.1.walk.map fun c => (x.1.decl c).name, x.2.2.model.walk.map x.2.2.model.qualifiedName)) =
      some (["A", "B", "B", "B1", "B1"], ["p.A", "p.A.B", "p.A.B1", "p.A.B11", "p.A.B12"]) := by
    decide +kernel
  rw [h, Option.map_some, Option.some.injEq, Prod.mk.injEq] at hn
  refine ⟨m, result, t, h, fun c hc => ?_, hn.2⟩
  have hmem := hn.1 ▸ List.mem_map_of_mem (f := fun c => (m.decl c).name) hc
  have all : ∀ name ∈ ["A", "B", "B", "B1", "B1"], name ≠ "" ∧ '.' ∉ name.toList := by decide
  exact all _ hmem

theorem names_of_namesakes_run : ∃ m result t, Model.ofValue namesakes = .ok m ∧
    (⟨{}, none, {}⟩ : Pass).run.run { model := m } = .ok result t ∧
      (t.model.walk.map t.model.qualifiedName).Nodup ∧
      ∀ c ∈ t.model.walk, ∃ m' d, (⟨{}, none, {}⟩ : Pass).reached? { model := m } c = some m' ∧
        m'.findClass? (m'.qualifiedName c) = some d ∧
          t.model.qualifiedName d = m'.qualifiedName c := by
  obtain ⟨m, result, t, h, hnames, -⟩ := ran?_namesakes
  obtain ⟨hm, hr⟩ := ran?_eq_some h
  exact ⟨m, result, t, hm, hr, names_of_run hm hnames rfl (by simp) hr⟩

def nameWhenReached? (p : Pass) (s : PassState) (c : ClassId) : Option String :=
  (p.reached? s c).map (·.qualifiedName c)

/-- Another class may have been renamed to the name before. -/
theorem first_reached_not_kept : ¬ ∀ (v : Value) (p : Pass) (s t : PassState) (result : PassResult),
    Model.ofValue v = .ok s.model →
    (∀ c ∈ s.model.walk, (s.model.decl c).name ≠ "" ∧ Pointless (s.model.decl c).name) →
    p.naming.escapes = Naming.defaultEscapes →
    (∀ f, p.control = some f → f.IsRead) →
    p.run.run s = .ok result t →
      (t.model.walk.map t.model.qualifiedName).Nodup ∧
        ∀ c ∈ t.model.walk,
          (∃ d ∈ t.model.walk, d ≠ c ∧ p.nameWhenReached? s d = p.nameWhenReached? s c) →
          (∀ d ∈ t.model.walk.takeWhile (· ≠ c),
            p.nameWhenReached? s d ≠ p.nameWhenReached? s c) →
          p.nameWhenReached? s c = some (t.model.qualifiedName c) := by
  intro claim
  obtain ⟨m, result, t, h, hnames, hnamed⟩ := ran?_namesakes
  obtain ⟨hm, hr⟩ := ran?_eq_some h
  have hkept := (claim namesakes ⟨{}, none, {}⟩ { model := m } t result hm hnames rfl (by simp) hr).2
  -- The classes of the walk are numbered in order; the first of the second pair is the fourth.
  have hwalk : t.model.walk = [⟨0⟩, ⟨1⟩, ⟨2⟩, ⟨3⟩, ⟨4⟩] := by
    have : ((⟨{}, none, {}⟩ : Pass).ran? namesakes).map (fun x => x.2.2.model.walk) =
        some [⟨0⟩, ⟨1⟩, ⟨2⟩, ⟨3⟩, ⟨4⟩] := by decide +kernel
    rw [h] at this
    exact Option.some.inj this
  have hreached : [0, 1, 2, 3, 4].map (fun i =>
      (⟨{}, none, {}⟩ : Pass).nameWhenReached? { model := m } ⟨i⟩) =
      [some "p.A", some "p.A.B", some "p.A.B", some "p.A.B1", some "p.A.B1"] := by
    have : ((⟨{}, none, {}⟩ : Pass).ran? namesakes).map (fun x => [0, 1, 2, 3, 4].map fun i =>
        (⟨{}, none, {}⟩ : Pass).nameWhenReached? { model := x.1 } ⟨i⟩) =
        some [some "p.A", some "p.A.B", some "p.A.B", some "p.A.B1", some "p.A.B1"] := by
      decide +kernel
    rw [h] at this
    exact Option.some.inj this
  simp only [List.map_cons, List.map_nil, List.cons.injEq, and_true] at hreached
  obtain ⟨h₀, h₁, h₂, h₃, h₄⟩ := hreached
  have := hkept ⟨3⟩ (by simp [hwalk]) ⟨⟨4⟩, by simp [hwalk], by decide, by rw [h₃, h₄]⟩ ?_
  · rw [h₃] at this
    rw [hwalk] at hnamed
    simp only [List.map_cons, List.cons.injEq] at hnamed
    rw [hnamed.2.2.2.1] at this
    exact absurd this (by decide)
  · rw [hwalk, h₃]
    intro d hd
    have : d ∈ [(⟨0⟩ : ClassId), ⟨1⟩, ⟨2⟩] := hd
    simp only [List.mem_cons, List.not_mem_nil, or_false] at this
    rcases this with rfl | rfl | rfl
    · rw [h₀]; decide
    · rw [h₁]; decide
    · rw [h₂]; decide

end Pass
end Enfold
