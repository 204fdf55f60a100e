import Enfold.Proofs.Model.Listing
import Enfold.Proofs.Pass.Uniqueness

/-! # Episodes after a run

A wrapper is listed under the name that it is made with, and the listed names follow their classes
when placement renames them. A name that several classes have is listed for all of them: when it is
to follow one of them, the others come to be listed as well.
-/

namespace Enfold

open PassM

variable {n : Naming} {m m' : Model} {s t : PassState} {c d w : ClassId} {p : PropertyId}
  {rs : List Record} {a b : PlacementState} {cs : List ClassId} {ref : String}
  {good : ClassId → Prop}

namespace Model

/-! ### Wrappers are listed -/

theorem lists_of_add (h : m'.episode = m.episode.map fun e => e.add ref) (x : String) :
    m'.lists x ↔ m.lists x ∨ m.episode.isSome ∧ ref = x := by
  rw [lists, h, lists]
  cases m.episode with
  | none => simp
  | some e =>
    rw [Option.map_some, Option.any_some, Option.any_some, Episode.contains_add]
    exact or_congr_right ⟨fun h => ⟨rfl, h.symm⟩, fun h => h.2.symm⟩

theorem episode_rewire (m : Model) (k : Candidate) (w : ClassId) (plan : WrapperPlan) :
    (m.rewire k w plan).episode = m.episode := by
  unfold rewire encase fitContent
  dsimp only
  split <;> rfl

theorem episode_implementWrapper (m : Model) (c w : ClassId) (q : PropertyId) :
    (m.implementWrapper c w q).episode = m.episode := by
  unfold implementWrapper
  split <;> rfl

end Model

theorem Candidate.Encloses.episode {k : Candidate} {plan : WrapperPlan} {r : Record}
    {q : PropertyId} (h : k.Encloses n plan s r t w q) :
    t.model.episode = s.model.episode.map fun e => e.add (t.model.qualifiedName w) := by
  have he : (((s.model.addWrapper k plan).1.rewire k w plan).implementWrapper
      k.owner w q).episode = s.model.episode := by
    rw [Model.episode_implementWrapper, Model.episode_rewire]
    rfl
  have hmodel := h.model
  generalize ((s.model.addWrapper k plan).1.rewire k w plan).implementWrapper k.owner w q = m at *
  have hname : t.model.qualifiedName w = m.qualifiedName w :=
    Model.qualifiedName_congr_classes (by rw [hmodel]; rfl) w
  rw [hname, ← he, hmodel]
  rfl

/-- Nothing is added to the list but the wrappers. -/
theorem Synthesizing.lists_iff (h : Synthesizing n s rs t) (hm : s.model.Described) :
    t.model.episode.isSome = s.model.episode.isSome ∧ ∀ ref, t.model.lists ref ↔
      s.model.lists ref ∨
        s.model.episode.isSome ∧ ∃ w ∈ wrappersOf rs, t.model.qualifiedName w = ref := by
  have hn (q) := (hm.prop q).reference
  induction h with
  | start => exact ⟨rfl, fun ref => by simp [wrappersOf]⟩
  | @step rs t u r hrun hk hstep ih =>
    obtain ⟨hlinked, hmem, -, hcase⟩ := hrun.step_ok hm.toLinked hn hk hstep
    have happend := wrappersOf_append rs [r]
    rcases hcase with hdrop | ⟨plan, w, q, hwrap⟩
    · obtain ⟨w, -, hr⟩ := hdrop.inherited
      have hnone : wrappersOf [r] = [] := by rw [hr]; rfl
      have hname (d) : u.model.qualifiedName d = t.model.qualifiedName d := by
        rw [hdrop.model, Model.qualifiedName_unlink hmem]
      have he : u.model.episode = t.model.episode := by rw [hdrop.model]; rfl
      refine ⟨he ▸ ih.1, fun ref => ?_⟩
      rw [Model.lists, he, ← Model.lists, ih.2, happend, hnone, List.append_nil]
      simp only [hname]
    · have hone : wrappersOf [r] = [w] := by rw [hwrap.record]; rfl
      have hold {v} (hv : v ∈ wrappersOf rs) :
          u.model.qualifiedName v = t.model.qualifiedName v := by
        have hids := ((hrun.rewriting hm.toLinked hn).reshaped hm.toLinked hn).classIds
        refine ((hwrap.wraps hlinked hmem).old_eq hlinked (Model.mem_classIds.mp ?_)).1
        exact hids ▸ List.mem_append_right _ hv
      refine ⟨by rw [hwrap.episode, Option.isSome_map, ih.1], fun ref => ?_⟩
      rw [Model.lists_of_add hwrap.episode, ih.1, ih.2, happend, hone, or_assoc, ← and_or_left]
      simp only [List.mem_append, List.mem_singleton, or_and_right, exists_or, exists_eq_left]
      refine or_congr_right (and_congr_right fun _ => or_congr_left ?_)
      exact exists_congr fun v => and_congr_right fun hv => by rw [hold hv]

theorem Rewriting.qualifiedName_eq (h : Rewriting n m rs m') (hm : m.Described)
    (hd : d ∈ m.walk) : m'.qualifiedName d = m.qualifiedName d := by
  refine Model.qualifiedName_congr_of (P := (·.index < m.classes.size)) (fun {c} hc => ?_)
    (fun _ hp => hm.parent_lt_size hp) ((Model.mem_walk hm.toLinked).mp hd)
  obtain ⟨_, hc⟩ := h.decl_eq hm.toLinked (fun q => (hm.prop q).reference) hc
  rw [hc]
  exact ⟨rfl, rfl, rfl⟩

/-! ### Listed classes stay listed -/

theorem Model.Linked.isListed_renameClass (hm : m.Linked) (hc : c.index < m.classes.size)
    {name : String}
    (hname : name = (m.decl c).name ∨ ∃ i : Nat, name = (m.decl c).name ++ toString i)
    (hd : d ∈ m.walk) (h : m.isListed d) : (m.renameClass c name).isListed d := by
  refine (hm.lists_renameClass hc hname).mpr ?_
  by_cases hdc : d ∈ m.subtree c
  · exact Or.inr ⟨d, hdc, h, rfl⟩
  · have hkeep := (m.relabelled_renameClass c name).qualifiedName_of_notMem (d := d)
      fun k hk => List.mem_singleton.mp hk ▸ hdc
    exact Or.inl ⟨hkeep ▸ h, fun _ => ⟨d, hd, rfl⟩⟩

theorem isListed_of_foldlM (hm : s.model.Linked) (hcs : ∀ c ∈ cs, c ∈ s.model.walk)
    (hd : d ∈ s.model.walk) (h : s.model.isListed d)
    (hp : (cs.foldlM (placeClass n) a).run s = .ok b t) : t.model.isListed d := by
  have hend := foldlM_inv (t := t) (fun _ _ u => u.model.Linked ∧ u.model.walk = s.model.walk ∧
    u.model.isListed d) ?_ ⟨hm, rfl, h⟩ hp
  · exact hend.2.2
  rintro done c rest a b u v rfl ⟨hl, hw, hlisted⟩ hc
  rcases placeClass_ok hc with ⟨-, rfl, -⟩ | ⟨-, hr, -⟩
  · exact ⟨hl, hw, hlisted⟩
  · obtain ⟨name, -, hname, ht⟩ := renameCollision_ok hr
    have hrel := u.model.relabelled_renameClass c name
    have hlt := (Model.mem_walk hl).mp (hw ▸ hcs c (by simp))
    rw [ht]
    exact ⟨hrel.linked hl, hrel.walk_eq.trans hw,
      hl.isListed_renameClass hlt hname (hw ▸ hd) hlisted⟩

/-! ### What comes to be listed -/

namespace Model

/-- While `c` is renamed, the listed name of another class is taken for that of `x`. -/
structure Mistaken (m₀ m : Model) (c x : ClassId) : Prop where
  listed : m.isListed x
  cause : (∃ k ∈ m.walk, k ≠ x ∧ m.qualifiedName k = m.qualifiedName x ∧
      (k ∈ m.subtree c ∨ x ∈ m.subtree c)) ∨
    x ∈ m.subtree c ∧ m₀.lists (m.qualifiedName x)

/-- What is listed beyond the list of a model are names of certain classes. -/
def Sourced (m₀ m : Model) (good : ClassId → Prop) : Prop :=
  ∀ ref, m.lists ref → m₀.lists ref = false → ∃ x ∈ m.walk, m.qualifiedName x = ref ∧ good x

variable {m₀ : Model}

theorem Sourced.renameClass (h : m₀.Sourced m good) (hm : m.Linked)
    (hc : c.index < m.classes.size) {name : String}
    (hname : name = (m.decl c).name ∨ ∃ i : Nat, name = (m.decl c).name ++ toString i) :
    m₀.Sourced (m.renameClass c name) fun x => good x ∨ m₀.Mistaken m c x := by
  have hr := m.relabelled_renameClass c name
  have hkeep {d} (hd : d ∉ m.subtree c) := hr.qualifiedName_of_notMem (d := d)
    fun k hk => List.mem_singleton.mp hk ▸ hd
  intro ref hlists hnew
  rw [hr.walk_eq]
  rcases (hm.lists_renameClass hc hname).mp hlists with ⟨hl, hfound⟩ | ⟨k, hk, hlisted, rfl⟩
  · obtain ⟨x, hx, hxref, hgood⟩ := h ref hl hnew
    by_cases hxc : x ∈ m.subtree c
    · -- A former name that is left is the name of some class still.
      obtain ⟨d, hd, hdref⟩ := hfound ⟨x, hxc, hxref⟩
      by_cases hdc : d ∈ m.subtree c
      · have he := hm.eq_of_qualifiedName_renameClass hc hname hdc hxc (hdref.trans hxref.symm)
        by_cases hdx : d = x
        · exact ⟨d, hd, hdref, Or.inl (hdx ▸ hgood)⟩
        · refine ⟨d, hd, hdref, Or.inr ⟨?_, Or.inl ⟨x, hx, Ne.symm hdx, he.symm, Or.inl hxc⟩⟩⟩
          rw [isListed, he, hxref, hl]
      · have hsame : m.qualifiedName d = ref := (hkeep hdc).symm.trans hdref
        have hlisted : m.isListed d := by rw [isListed, hsame, hl]
        have hxd : x ≠ d := by
          rintro rfl
          exact hdc hxc
        exact ⟨d, hd, hdref, Or.inr ⟨hlisted, Or.inl ⟨x, hx, hxd, hxref.trans hsame.symm,
          Or.inl hxc⟩⟩⟩
    · exact ⟨x, hx, (hkeep hxc).trans hxref, Or.inl hgood⟩
  · have hkw : k ∈ m.walk := (mem_walk hm).mpr (lt_of_mem_subtree hk hc)
    refine ⟨k, hkw, rfl, ?_⟩
    cases ho : m₀.lists (m.qualifiedName k) with
    | true => exact Or.inr ⟨hlisted, Or.inr ⟨hk, ho⟩⟩
    | false =>
      obtain ⟨x, hx, hxk, hgood⟩ := h _ hlisted ho
      by_cases hxk' : x = k
      · exact Or.inl (hxk' ▸ hgood)
      · exact Or.inr ⟨hlisted, Or.inl ⟨x, hx, hxk', hxk, Or.inr hk⟩⟩

theorem Sourced.mono {good' : ClassId → Prop} (h : m₀.Sourced m good)
    (hg : ∀ x, good x → good' x) : m₀.Sourced m good' := fun ref hl hn => by
  obtain ⟨x, hx, hxref, hgood⟩ := h ref hl hn
  exact ⟨x, hx, hxref, hg x hgood⟩

theorem Sourced.foldlM (h : m₀.Sourced s.model good) (hm : s.model.Linked)
    (hp : (s.model.walk.foldlM (placeClass n) {}).run s = .ok b t) :
    m₀.Sourced t.model fun x => good x ∨ ∃ c ∈ b.renamed, ∃ done rest a u,
      s.model.walk = done ++ c :: rest ∧ (done.foldlM (placeClass n) {}).run s = .ok a u ∧
        m₀.Mistaken u.model c x := by
  refine (foldlM_inv (t := t) (fun done b u => (done.foldlM (placeClass n) {}).run s = .ok b u ∧
    u.model.Linked ∧ u.model.walk = s.model.walk ∧
    m₀.Sourced u.model fun x => good x ∨ ∃ c ∈ b.renamed, ∃ l₁ l₂ a y,
      s.model.walk = l₁ ++ c :: l₂ ∧ (l₁.foldlM (placeClass n) {}).run s = .ok a y ∧
        m₀.Mistaken y.model c x) ?_ ⟨rfl, hm, rfl, h.mono fun _ => Or.inl⟩ hp).2.2.2
  rintro done c rest a b u v hsplit ⟨hrun, hl, hw, hsourced⟩ hc
  have hrun' : ((done ++ [c]).foldlM (placeClass n) {}).run s = .ok b v := by
    rw [List.foldlM_append]
    exact bind_eq_ok.mpr ⟨a, u, hrun, by simpa using hc⟩
  rcases placeClass_ok hc with ⟨-, rfl, rfl⟩ | ⟨-, hr, rfl⟩
  · exact ⟨hrun', hl, hw, hsourced⟩
  · obtain ⟨name, -, hname, ht⟩ := renameCollision_ok hr
    have hrel := u.model.relabelled_renameClass c name
    have hlt : c.index < u.model.classes.size := (mem_walk hl).mp (by rw [hw, hsplit]; simp)
    rw [ht]
    refine ⟨ht ▸ hrun', hrel.linked hl, hrel.walk_eq.trans hw,
      (hsourced.renameClass hl hlt hname).mono ?_⟩
    rintro x ((hgood | ⟨d, hd, hmistaken⟩) | hmistaken)
    · exact Or.inl hgood
    · exact Or.inr ⟨d, List.mem_append_left _ hd, hmistaken⟩
    · exact Or.inr ⟨c, by simp, done, rest, a, u, hsplit, hrun, hmistaken⟩

end Model

/-! ### The episode of a run -/

namespace Pass

variable {p : Pass} {result : PassResult}

theorem reached?_split {ks : List Candidate} {u v : PassState} (hc : p.choose.run s = .ok ks u)
    (hs : (synthesizeAll p.naming ks).run u = .ok rs v) (h : p.reached? s c = some m) :
    ∃ done rest a x, v.model.walk = done ++ rest ∧
      (done.foldlM (placeClass p.naming) {}).run v = .ok a x ∧ x.model = m := by
  unfold reached? at h
  split at h
  · next x hx =>
    cases h
    obtain ⟨ks', u', hc', hx⟩ := bind_eq_ok.mp hx
    rw [hc] at hc'
    cases hc'
    obtain ⟨_, v', hv', hx⟩ := bind_eq_ok.mp hx
    obtain ⟨rs', v'', hs', hv'⟩ := bind_eq_ok.mp hv'
    rw [hs] at hs'
    cases hs'
    cases hv'
    rw [run_get_bind] at hx
    obtain ⟨a, y, hy, hx⟩ := bind_eq_ok.mp hx
    cases hx
    exact ⟨_, _, a, x, List.takeWhile_append_dropWhile.symm, hy, rfl⟩
  · cases h

theorem lists_of_synthesizeAll {ks : List Candidate} {u v : PassState} (hm : s.model.Described)
    (hc : p.choose.run s = .ok ks u) (hs : (synthesizeAll p.naming ks).run u = .ok rs v) :
    v.model.lists ref ↔ s.model.lists ref ∨
      s.model.episode.isSome ∧ ∃ w ∈ wrappersOf rs, v.model.qualifiedName w = ref := by
  obtain ⟨-, hu⟩ := choose_ok hc
  obtain ⟨x, ns, hx, rfl⟩ := synthesizeAll_ok hs
  have hsyn := (synthesizing_of_choose hm hc (List.prefix_refl ks) hx).2
  have hlists := (hsyn.lists_iff (hu ▸ hm)).2 ref
  rwa [hu] at hlists

theorem listed_of_described (hd : s.model.Described) (he : s.model.episode.isSome)
    (h : p.run.run s = .ok result t) :
    (∀ w ∈ result.wrappers, t.model.isListed w) ∧
      ∀ c ∈ s.model.walk, s.model.isListed c → t.model.isListed c := by
  obtain ⟨ks, u, v, w, hc, hs, hp, ht, rfl, -, hr⟩ := run_stages hd h
  obtain ⟨b, x, hf, -, hx⟩ := placeClasses_ok hp
  have hshape := hr.reshaped hd.toLinked fun q => (hd.prop q).reference
  have hwalk {c} : c ∈ v.model.walk ↔ c ∈ s.model.walk ∨ c ∈ result.wrappers :=
    (hshape.perm_walk hd.toLinked).mem_iff.trans List.mem_append
  have hkeep {c} (hc : c ∈ v.model.walk) (hl : v.model.isListed c) : t.model.isListed c := by
    rw [ht, hx]
    exact isListed_of_foldlM hshape.linked (fun _ h => h) hc hl hf
  refine ⟨fun w hw => hkeep (hwalk.mpr (Or.inr hw)) ?_,
    fun c hcw hl => hkeep (hwalk.mpr (Or.inl hcw)) ?_⟩
  · exact (lists_of_synthesizeAll hd hc hs).mpr (Or.inr ⟨he, w, hw, rfl⟩)
  · rw [Model.isListed, hr.qualifiedName_eq hd hcw]
    exact (lists_of_synthesizeAll hd hc hs).mpr (Or.inl hl)

/-- The wrappers and all listed classes are listed under their final names. -/
theorem listed_of_run {v : Value} (hm : Model.ofValue v = .ok s.model)
    (he : s.model.episode.isSome) (h : p.run.run s = .ok result t) :
    (∀ w ∈ result.wrappers, t.model.isListed w) ∧
      ∀ c ∈ s.model.walk, s.model.isListed c → t.model.isListed c :=
  listed_of_described (Model.described_ofValue hm) he h

def sharedItems (episode : List Value) : Value :=
  .object [("package", .text "shop"), ("episode", .list episode), ("classes", .list [
    .object [("name", .text "Items")],
    .object [("name", .text "Order"), ("properties", .list [
      .object [("name", .text "item"), ("repeated", .bool true),
        ("customization", .object [("class", .text "Items")])]])]])]

theorem listed_of_sharedItems_run : ∃ m result t,
    Model.ofValue (sharedItems [.text "shop.Items"]) = .ok m ∧
      (⟨{}, none, {}⟩ : Pass).run.run { model := m } = .ok result t ∧
      m.episode.isSome ∧ result.renamed.map t.model.qualifiedName = ["shop.Items1"] ∧
      (∀ w ∈ result.wrappers, t.model.isListed w) ∧
        ∀ c ∈ m.walk, m.isListed c → t.model.isListed c := by
  obtain ⟨m, result, t, hm, hr, he, hrenamed⟩ := exists_run_of_ran? ⟨{}, none, {}⟩
    (sharedItems [.text "shop.Items"]) (fun m result t => m.episode.isSome ∧
      result.renamed.map t.model.qualifiedName = ["shop.Items1"]) (by decide +kernel)
  exact ⟨m, result, t, hm, hr, he, hrenamed, listed_of_run hm he hr⟩

theorem isListed_of_reached? (hd : s.model.Described) (h : p.run.run s = .ok result t)
    (hm : p.reached? s c = some m) (hw : d ∈ t.model.walk) (hl : m.isListed d) :
    t.model.isListed d := by
  obtain ⟨ks, u, v, w, hc, hs, hp, ht, rfl, -, hr⟩ := run_stages hd h
  obtain ⟨b, x, hf, -, hx⟩ := placeClasses_ok hp
  have hlinked := (hr.reshaped hd.toLinked fun q => (hd.prop q).reference).linked
  obtain ⟨done, rest, a, z, hsplit, hrun, rfl⟩ := reached?_split hc hs hm
  have hz := relabelled_of_foldlM hrun
  rw [ht, hx] at hw ⊢
  rw [(relabelled_of_foldlM hf).walk_eq, ← hz.walk_eq] at hw
  rw [hsplit, List.foldlM_append] at hf
  obtain ⟨a', z', hrun', hrest⟩ := bind_eq_ok.mp hf
  rw [hrun] at hrun'
  cases hrun'
  refine isListed_of_foldlM (hz.linked hlinked) (fun d hd => ?_) hw hl hrest
  rw [hz.walk_eq, hsplit]
  exact List.mem_append_right _ hd

theorem sourced_of_run (hd : s.model.Described) (h : p.run.run s = .ok result t) :
    s.model.Sourced t.model fun x => x ∈ result.wrappers ∨
      ∃ c ∈ result.renamed, ∃ m, p.reached? s c = some m ∧ s.model.Mistaken m c x := by
  obtain ⟨ks, u, v, w, hc, hs, hp, ht, rfl, -, hr⟩ := run_stages hd h
  obtain ⟨b, x, hf, hrenamed, hx⟩ := placeClasses_ok hp
  have hshape := hr.reshaped hd.toLinked fun q => (hd.prop q).reference
  have hstart : s.model.Sourced v.model fun x => x ∈ result.wrappers := by
    intro ref hl hn
    obtain ⟨-, w, hw, hwref⟩ :=
      ((lists_of_synthesizeAll hd hc hs).mp hl).resolve_left (by simp [hn])
    exact ⟨w, (hshape.perm_walk hd.toLinked).mem_iff.mpr (List.mem_append_right _ hw), hwref, hw⟩
  rw [ht, hx]
  refine (hstart.foldlM hshape.linked hf).mono fun y hy => hy.imp_right ?_
  rintro ⟨c, hcr, done, rest, a, z, hsplit, hrun, hmistaken⟩
  have hnot : c ∉ done := by
    have hnodup := hsplit ▸ Model.nodup_walk hshape.linked
    exact fun hm => (List.nodup_append.mp hnodup).2.2 c hm c List.mem_cons_self rfl
  exact ⟨c, hrenamed ▸ hcr, z.model, reached?_eq_some hc hs hsplit hnot hrun, hmistaken⟩

/-- A new reference names a wrapper, a listed class, or one that was mistaken for another in a
renaming. -/
theorem lists_iff_of_run {v : Value} (hm : Model.ofValue v = .ok s.model)
    (he : s.model.episode.isSome) (h : p.run.run s = .ok result t)
    (hnew : s.model.lists ref = false) :
    t.model.lists ref ↔ ∃ x ∈ t.model.walk, t.model.qualifiedName x = ref ∧
      (x ∈ result.wrappers ∨ (x ∈ s.model.walk ∧ s.model.isListed x) ∨
        ∃ c ∈ result.renamed, ∃ m, p.reached? s c = some m ∧ s.model.Mistaken m c x) := by
  have hd := Model.described_ofValue hm
  obtain ⟨hwrappers, hlisted⟩ := listed_of_described hd he h
  constructor
  · intro hl
    obtain ⟨x, hx, hxref, hgood⟩ := sourced_of_run hd h ref hl hnew
    exact ⟨x, hx, hxref, hgood.imp_right Or.inr⟩
  · rintro ⟨x, hx, rfl, hw | ⟨hs, hl⟩ | ⟨c, -, m, hreached, hmistaken⟩⟩
    · exact hwrappers x hw
    · exact hlisted x hs hl
    · exact isListed_of_reached? hd h hreached hx hmistaken.listed

theorem lists_iff_of_sharedItems_run : ∃ m result t, Model.ofValue (sharedItems []) = .ok m ∧
    (⟨{}, none, {}⟩ : Pass).run.run { model := m } = .ok result t ∧
      m.episode.isSome ∧ m.lists "shop.Items1" = false ∧
      (t.model.lists "shop.Items1" ↔ ∃ x ∈ t.model.walk,
        t.model.qualifiedName x = "shop.Items1" ∧
          (x ∈ result.wrappers ∨ (x ∈ m.walk ∧ m.isListed x) ∨ ∃ c ∈ result.renamed, ∃ m',
            (⟨{}, none, {}⟩ : Pass).reached? { model := m } c = some m' ∧ m.Mistaken m' c x)) := by
  obtain ⟨m, result, t, hm, hr, he, hnew⟩ := exists_run_of_ran? ⟨{}, none, {}⟩ (sharedItems [])
    (fun m _ _ => m.episode.isSome ∧ m.lists "shop.Items1" = false) (by decide +kernel)
  exact ⟨m, result, t, hm, hr, he, hnew, lists_iff_of_run hm he hr hnew⟩

/-- A wrapper that is renamed leaves its reference to a namesake. -/
theorem unlisted_class_listed : ¬ ∀ (v : Value) (p : Pass) (s t : PassState) (result : PassResult),
    Model.ofValue v = .ok s.model → s.model.episode.isSome → p.run.run s = .ok result t →
      ∀ ref, t.model.lists ref → s.model.lists ref = false → ∃ x ∈ t.model.walk,
        t.model.qualifiedName x = ref ∧
          (x ∈ result.wrappers ∨ x ∈ s.model.walk ∧ s.model.isListed x) := by
  intro claim
  obtain ⟨m, result, t, hm, hr, he, hold, hnew, hnone⟩ := exists_run_of_ran? ⟨{}, none, {}⟩
    (sharedItems []) (fun m result t => m.episode.isSome ∧ t.model.lists "shop.Items" ∧
      m.lists "shop.Items" = false ∧ ∀ x ∈ t.model.walk, t.model.qualifiedName x = "shop.Items" →
        x ∉ result.wrappers ∧ m.isListed x = false) (by decide +kernel)
  obtain ⟨x, hx, hname, hw | ⟨-, hl⟩⟩ :=
    claim _ ⟨{}, none, {}⟩ { model := m } t result hm he hr "shop.Items" hold hnew
  · exact (hnone x hx hname).1 hw
  · rw [(hnone x hx hname).2] at hl
    cases hl

end Pass
end Enfold
