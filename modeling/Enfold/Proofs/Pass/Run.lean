import Enfold.Proofs.Model.Built
import Enfold.Proofs.Pass.Placement

/-! # What a run does

A run that returns has chosen the candidates of its model, rewritten it record by record, and then
renamed some classes. All that can be said of the outcome follows from these three.
-/

namespace Enfold

open PassM

variable {n : Naming} {m m' : Model} {s t : PassState} {rs : List Record} {w : ClassId}
  {p : Pass} {result : PassResult}

namespace Pass

theorem writeSummary_keepsModel (path : Value) : KeepsModel (writeSummary path) := by
  unfold writeSummary
  refine (Keeps.require _ _).bind fun _ => Keeps.get.bind fun _ => ?_
  refine (Keeps.require _ _).bind fun files => Keeps.bind ?_ fun _ => .report (fun _ _ => rfl) _
  exact ⟨fun h => by cases h; rfl, fun h => by cases h⟩

theorem run_conclude (p : Pass) (k : Counters) (s : PassState) : (p.conclude k).run s =
    (if p.options.summary.isTruthy then writeSummary p.options.summary else pure ()).run
      { s with notices := s.notices ++ k.lines.map .summaryLine } := by
  have hlines : (k.lines.forM fun l => report (.summaryLine l)).run s =
      .ok () { s with notices := s.notices ++ k.lines.map .summaryLine } := by
    rw [← run_reports, List.forM_map]
    rfl
  unfold conclude
  rw [EStateM.run_bind, hlines]

theorem conclude_keepsModel (p : Pass) (k : Counters) : KeepsModel (p.conclude k) := by
  unfold conclude
  refine Keeps.bind ?_ fun _ => ?_
  · induction k.lines with
    | nil => exact .pure _
    | cons l ls ih => exact (Keeps.report (fun _ _ => rfl) _).bind fun _ => ih
  · split
    · exact writeSummary_keepsModel _
    · exact .pure _

/-- The stages of a run that returns. -/
theorem run_ok (h : p.run.run s = .ok result t) : ∃ ks u v w, p.choose.run s = .ok ks u ∧
    (synthesizeAll p.naming ks).run u = .ok result.records v ∧
      (placeClasses p.naming).run v = .ok result.renamed w ∧ t.model = w.model ∧
        result.counters = w.counters ∧ (p.conclude w.counters).run w = .ok () t := by
  obtain ⟨ks, u, hc, h⟩ := bind_eq_ok.mp h
  obtain ⟨rs, v, hs, h⟩ := bind_eq_ok.mp h
  obtain ⟨cs, w, hp, h⟩ := bind_eq_ok.mp h
  rw [run_get_bind] at h
  obtain ⟨_, x, he, h⟩ := bind_eq_ok.mp h
  cases h
  exact ⟨ks, u, v, w, hc, hs, hp, (p.conclude_keepsModel _).of_ok he, rfl, he⟩

theorem synthesizing_of_linked {ks done : List Candidate} {u v : PassState}
    (hm : s.model.Linked) (hc : p.choose.run s = .ok ks u) (hd : done <+: ks)
    (h : (done.mapM (Candidate.synthesize p.naming)).run u = .ok rs v) :
    rs.map Record.candidate = done ∧ Synthesizing p.naming u rs v := by
  obtain ⟨hk, hu⟩ := choose_ok hc
  have hsub := hd.sublist.map Candidate.prop
  rw [hk] at hd hsub
  refine synthesizing_of_mapM (hu ▸ hm) (fun k hmem => ?_)
    ((Customization.nodup_candidates hm).sublist hsub) h
  rw [hu]
  exact (Customization.of_mem_candidates (hd.subset hmem)).1

theorem synthesizing_of_choose {ks done : List Candidate} {u v : PassState}
    (hm : s.model.Described) (hc : p.choose.run s = .ok ks u) (hd : done <+: ks)
    (h : (done.mapM (Candidate.synthesize p.naming)).run u = .ok rs v) :
    rs.map Record.candidate = done ∧ Synthesizing p.naming u rs v :=
  synthesizing_of_linked hm.toLinked hc hd h

/-- The wrapping of what was chosen advances the model. -/
theorem advanced_of_choose {ks : List Candidate} {u v : PassState} (hm : s.model.Linked)
    (hc : p.choose.run s = .ok ks u) (h : (synthesizeAll p.naming ks).run u = .ok rs v) :
    rs.map Record.candidate = ks ∧ Advanced s.model rs v.model := by
  obtain ⟨x, ns, hx, rfl⟩ := synthesizeAll_ok h
  obtain ⟨hrs, hsyn⟩ := synthesizing_of_linked hm hc (List.prefix_refl ks) hx
  obtain ⟨-, hu⟩ := choose_ok hc
  exact ⟨hrs, hu ▸ hsyn.advanced (hu ▸ hm)⟩

theorem advanced_of_run (hm : s.model.Linked) (h : p.run.run s = .ok result t) : ∃ v w,
    (placeClasses p.naming).run v = .ok result.renamed w ∧ t.model = w.model ∧
      Advanced s.model result.records v.model := by
  obtain ⟨ks, u, v, w, hc, hs, hp, ht, -⟩ := run_ok h
  exact ⟨v, w, hp, ht, (advanced_of_choose hm hc hs).2⟩

theorem synthesizeAll_eq_error {ks : List Candidate} {u v : PassState} {e : Failure}
    (hm : s.model.Linked) (hc : p.choose.run s = .ok ks u)
    (h : (synthesizeAll p.naming ks).run u = .error e v) : ∃ rs k rest x,
      ks = rs.map Record.candidate ++ k :: rest ∧ Synthesizing p.naming u rs x ∧
        Advanced s.model rs x.model ∧ k.Fresh s.model rs ∧
          (k.synthesize p.naming).run x = .error e v := by
  rcases bind_eq_error.mp h with h | ⟨_, _, -, h⟩
  · obtain ⟨done, k, rest, rs, x, rfl, hdone, hfail⟩ := mapM_eq_error h
    obtain ⟨hrs, hsyn⟩ := synthesizing_of_linked hm hc ⟨k :: rest, rfl⟩ hdone
    obtain ⟨hk, hu⟩ := choose_ok hc
    have hmem : k ∈ Customization.candidates ⟨p.options, p.control⟩ s.model := hk ▸ by simp
    refine ⟨rs, k, rest, x, by rw [hrs], hsyn, hu ▸ hsyn.advanced (hu ▸ hm), ?_, hfail⟩
    exact Candidate.fresh_of_map_eq (Customization.of_mem_candidates hmem).1
      (hk ▸ Customization.nodup_candidates hm) hrs
  · cases h

theorem run_eq_error {e : Failure} (h : p.run.run s = .error e t) :
    p.choose.run s = .error e t ∨ ∃ ks u, p.choose.run s = .ok ks u ∧
      ((synthesizeAll p.naming ks).run u = .error e t ∨
        ∃ rs v, (synthesizeAll p.naming ks).run u = .ok rs v ∧
          ((placeClasses p.naming).run v = .error e t ∨
            ∃ cs w, (placeClasses p.naming).run v = .ok cs w ∧
              (p.conclude w.counters).run w = .error e t)) := by
  refine (bind_eq_error.mp h).imp_right ?_
  rintro ⟨ks, u, hc, h⟩
  refine ⟨ks, u, hc, (bind_eq_error.mp h).imp_right ?_⟩
  rintro ⟨rs, v, hs, h⟩
  refine ⟨rs, v, hs, (bind_eq_error.mp h).imp_right ?_⟩
  rintro ⟨cs, w, hp, h⟩
  rw [run_get_bind] at h
  rcases bind_eq_error.mp h with h | ⟨_, _, -, h⟩
  · exact ⟨cs, w, hp, h⟩
  · cases h

theorem run_stages (hm : s.model.Described) (h : p.run.run s = .ok result t) : ∃ ks u v w,
    p.choose.run s = .ok ks u ∧ (synthesizeAll p.naming ks).run u = .ok result.records v ∧
      (placeClasses p.naming).run v = .ok result.renamed w ∧ t.model = w.model ∧
        ks = Customization.candidates ⟨p.options, p.control⟩ s.model ∧
          result.records.map Record.candidate = ks ∧
            Rewriting p.naming s.model result.records v.model := by
  obtain ⟨ks, u, v, w, hc, hs, hp, ht, -⟩ := run_ok h
  obtain ⟨hk, hu⟩ := choose_ok hc
  obtain ⟨x, ns, hx, hv⟩ := synthesizeAll_ok hs
  obtain ⟨hrs, hsyn⟩ := synthesizing_of_choose hm hc (List.prefix_refl ks) hx
  have hr := hsyn.rewriting (hu ▸ hm.toLinked) fun q => by
    rw [hu]
    exact (hm.prop q).reference
  rw [hu] at hr
  exact ⟨ks, u, v, w, hc, hs, hp, ht, hk, hrs, by rw [hv]; exact hr⟩

/-- What a run makes of the model that a value describes, if it returns. -/
def ran? (p : Pass) (v : Value) : Option (Model × PassResult × PassState) :=
  match Model.ofValue v with
  | .error _ => none
  | .ok m =>
    match p.run.run { model := m } with
    | .ok result t => some (m, result, t)
    | .error _ _ => none

theorem ran?_eq_some {v : Value} (h : p.ran? v = some (m, result, t)) :
    Model.ofValue v = .ok m ∧ p.run.run { model := m } = .ok result t := by
  unfold ran? at h
  split at h
  · cases h
  · next m₁ hm =>
    split at h
    · next hr =>
      cases h
      exact ⟨hm, hr⟩
    · cases h

/-- What is found by evaluation of a run is a fact about the run. -/
theorem exists_run_of_ran? (p : Pass) (v : Value) (P : Model → PassResult → PassState → Prop)
    [∀ m result t, Decidable (P m result t)]
    (h : ((p.ran? v).any fun x => P x.1 x.2.1 x.2.2) = true) :
    ∃ m result t, Model.ofValue v = .ok m ∧ p.run.run { model := m } = .ok result t ∧
      P m result t := by
  cases hx : p.ran? v with
  | none =>
    rw [hx] at h
    cases h
  | some x =>
    rw [hx, Option.any_some, decide_eq_true_eq] at h
    obtain ⟨hm, hr⟩ := ran?_eq_some hx
    exact ⟨x.1, x.2.1, x.2.2, hm, hr, h⟩

end Pass

/-! ### The shape of the outcome -/

theorem eq_of_nodup_filterMap {α β : Type} {f : α → Option β} {l : List α} {a a' : α} {b : β}
    (hl : (l.filterMap f).Nodup) (ha : a ∈ l) (ha' : a' ∈ l) (h : f a = some b)
    (h' : f a' = some b) : a = a' := by
  induction l with
  | nil => cases ha
  | cons x l ih =>
    have later {a : α} (ha : a ∈ l) (h : f a = some b) : b ∈ l.filterMap f :=
      List.mem_filterMap.mpr ⟨a, ha, h⟩
    rcases List.mem_cons.mp ha with rfl | hm <;> rcases List.mem_cons.mp ha' with rfl | hm'
    · rfl
    · rw [List.filterMap_cons_some h, List.nodup_cons] at hl
      exact absurd (later hm' h') hl.1
    · rw [List.filterMap_cons_some h', List.nodup_cons] at hl
      exact absurd (later hm h) hl.1
    · refine ih ?_ hm hm'
      cases hx : f x with
      | none => rwa [List.filterMap_cons_none hx] at hl
      | some y =>
        rw [List.filterMap_cons_some hx] at hl
        exact (List.nodup_cons.mp hl).2

namespace Reshaped

theorem nodup_wrappersOf (h : Reshaped n m rs m') : (wrappersOf rs).Nodup :=
  (List.nodup_append.mp (h.classIds ▸ Model.nodup_classIds m')).2.1

theorem perm_walk (h : Reshaped n m rs m') (hm : m.Linked) :
    m'.walk.Perm (m.walk ++ wrappersOf rs) := by
  have hids := h.classIds ▸ Model.nodup_classIds m'
  have hold (c) : c ∈ m.walk ↔ c ∈ m.classIds := by rw [Model.mem_walk hm, Model.mem_classIds]
  refine (List.perm_ext_iff_of_nodup (Model.nodup_walk h.linked) ?_).mpr fun c => ?_
  · rw [List.nodup_append] at hids ⊢
    exact ⟨Model.nodup_walk hm, hids.2.1, fun a ha => hids.2.2 a ((hold a).mp ha)⟩
  · rw [Model.mem_walk h.linked, ← Model.mem_classIds, h.classIds, List.mem_append,
      List.mem_append, hold]

theorem settles_of_mem (h : Reshaped n m rs m') (hw : w ∈ wrappersOf rs) :
    ∃ r ∈ rs, r.deleted = false ∧ ∃ q, r.Settles n m m' w q := by
  obtain ⟨r, hr, hd, hrw⟩ := mem_wrappersOf.mp hw
  obtain ⟨w', q, hs⟩ := h.settled r hr hd
  obtain rfl : w' = w := Option.some.inj (hs.wrapper.symm.trans hrw)
  exact ⟨r, hr, hd, q, hs⟩

theorem existsUnique_reference (h : Reshaped n m rs m') (hw : w ∈ wrappersOf rs) :
    ∃! q, (m'.prop q).reference = some w := by
  obtain ⟨r, hr, hd, q, hs⟩ := h.settles_of_mem hw
  have hrw : (if r.deleted then none else r.wrapper) = some w := by
    rw [hd, if_neg Bool.false_ne_true, hs.wrapper]
  refine ⟨q, ?_, fun q' hq' => ?_⟩
  · obtain ⟨_, _, _, hq⟩ := hs.standIn
    simp only [hq]
    rfl
  · obtain ⟨r', hr', hd', hrw', hrq'⟩ := h.referred q' w hq'
    obtain rfl : r = r' :=
      eq_of_nodup_filterMap h.nodup_wrappersOf hr hr' hrw (by simp [hd', hrw'])
    exact Option.some.inj (hrq'.symm.trans hs.reference)

end Reshaped

namespace Pass

theorem reshaped_of_described (hm : s.model.Described) (h : p.run.run s = .ok result t) :
    Reshaped p.naming s.model result.records t.model := by
  obtain ⟨ks, u, x, y, -, -, hp, ht, -, -, hr⟩ := run_stages hm h
  have hn (q) := (hm.prop q).reference
  exact (hr.reshaped hm.toLinked hn).relabelled hn (ht ▸ placeClasses_relabelled hp)

/-- The model of a run is that of its records: the old classes, a wrapper for each candidate, and
one reference to it. -/
theorem reshaped_of_run {v : Value} (hm : Model.ofValue v = .ok s.model)
    (h : p.run.run s = .ok result t) :
    result.records.map Record.candidate =
        Customization.candidates ⟨p.options, p.control⟩ s.model ∧
      Reshaped p.naming s.model result.records t.model ∧
      t.model.walk.Perm (s.model.walk ++ result.wrappers) ∧
      ∀ w ∈ result.wrappers, ∃! q, (t.model.prop q).reference = some w := by
  have hd := Model.described_ofValue hm
  obtain ⟨ks, -, -, -, -, -, -, -, rfl, hc, -⟩ := run_stages hd h
  have hs := reshaped_of_described hd h
  exact ⟨hc, hs, hs.perm_walk hd.toLinked, fun w hw => hs.existsUnique_reference hw⟩

def orders : Value :=
  .object [("package", .text "shop"), ("classes", .list [
    .object [("name", .text "Order"), ("properties", .list [
      .object [("name", .text "item"), ("type", .text "Item"), ("repeated", .bool true)],
      .object [("name", .text "id"), ("attribute", .bool true)],
      .object [("name", .text "note"), ("kind", .text "mixed"), ("repeated", .bool true)]])],
    .object [("name", .text "BulkOrder"), ("base", .text "shop.Order"), ("properties", .list [
      .object [("name", .text "item"), ("type", .text "Item"), ("repeated", .bool true)]])]])]

theorem reshaped_of_orders_run : ∃ m result t, Model.ofValue orders = .ok m ∧
    (⟨{}, none, {}⟩ : Pass).run.run { model := m } = .ok result t ∧
      result.records.map Record.deleted = [false, false, true] ∧
      result.records.map Record.candidate = Customization.candidates ⟨{}, none⟩ m ∧
      Reshaped {} m result.records t.model ∧ t.model.walk.Perm (m.walk ++ result.wrappers) ∧
      ∀ w ∈ result.wrappers, ∃! q, (t.model.prop q).reference = some w := by
  obtain ⟨⟨m, result, t⟩, h⟩ : ∃ x, (⟨{}, none, {}⟩ : Pass).ran? orders = some x :=
    Option.isSome_iff_exists.mp (by decide +kernel)
  have hd : ((⟨{}, none, {}⟩ : Pass).ran? orders).map (fun x => x.2.1.records.map Record.deleted) =
      some [false, false, true] := by decide +kernel
  rw [h] at hd
  obtain ⟨hm, hr⟩ := ran?_eq_some h
  exact ⟨m, result, t, hm, hr, Option.some.inj hd, reshaped_of_run hm hr⟩

end Pass
end Enfold
