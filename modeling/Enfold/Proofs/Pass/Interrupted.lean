import Enfold.Proofs.Pass.Inheritance

/-! # Runs that fail

A run fails before it changes anything, or when no name is left for a wrapper, for the field of a
reference, or for a class that is placed, or in writing its summary. The candidate at which it stops
is as it was. Those before it are dropped or wrapped as they would be by a run that returns, and
those after it still stand in their places.
-/

namespace Enfold

open PassM

variable {n : Naming} {m m' : Model} {s t : PassState} {k : Candidate} {rs : List Record}
  {e : Naming.NameError} {f : Failure}

/-- The failure to find a name by the tables and the limit of a naming. -/
def Naming.Fails (n : Naming) (f : Failure) : Prop := ∃ e, f = .name e ∧ n.CanFail e

theorem fails_of_avoids {α : Type} {x : PassM α}
    (hx : ∀ bad : Failure → Prop, (∀ e, n.CanFail e → ¬ bad (.name e)) → Avoids bad x)
    (h : x.run s = .error f t) : n.Fails f := by
  by_contra hne
  exact (hx (fun f => ¬ n.Fails f) fun y hy hbad => hbad ⟨y, rfl, hy⟩).not_bad h hne

namespace Candidate

theorem plan_keepsModel (k : Candidate) (n : Naming) : KeepsModel (k.plan n) :=
  k.plan_keeps PassState.model (fun _ _ => rfl) n

/-- A candidate is dropped or wrapped, unless it finds no name. -/
theorem synthesize_error (hm : s.model.Linked)
    (hk : k.prop ∈ (s.model.decl k.owner).properties)
    (h : (k.synthesize n).run s = .error f t) : n.Fails f := by
  unfold synthesize at h
  rw [run_get_bind] at h
  split at h
  · next w _ =>
    rw [run_dropInherited hm hk] at h
    cases h
  · rcases bind_eq_error.mp h with h | ⟨plan, u, hp, h⟩
    · exact fails_of_avoids (fun _ hn => plan_avoids hn k) h
    · obtain ⟨hu, hp⟩ := plan_ok hp
      rw [run_wrap (hu ▸ hm) (hu ▸ hk) (hu ▸ hp.fits) rfl rfl rfl] at h
      cases h

theorem model_eq_of_name_error (h : (k.synthesize n).run s = .error (.name e) t) :
    t.model = s.model := by
  unfold synthesize at h
  rw [run_get_bind] at h
  split at h
  · next w _ =>
    have ha : Avoids (fun f => ∃ e, f = .name e) (k.dropInherited w) :=
      dropInherited_avoids (by simp) (by simp) (by simp) k w
    exact absurd ⟨e, rfl⟩ (ha.not_bad h)
  · rcases bind_eq_error.mp h with h | ⟨plan, u, -, h⟩
    · exact (k.plan_keepsModel n).of_error h
    · -- With a plan at hand no further name is asked for.
      have ha : Avoids (fun f => ∃ e, f = .name e) (k.wrap plan) :=
        wrap_avoids (by simp) (by simp) (by simp) k plan
      exact absurd ⟨e, rfl⟩ (ha.not_bad h)

end Candidate

/-- The candidates that were dealt with come first, and the others stand where they stood. -/
structure Interrupted (n : Naming) (ks : List Candidate) (m : Model) (rs : List Record)
    (m' : Model) : Prop where
  chosen : rs.map Record.candidate <+: ks
  classes : m'.walk.Perm (m.walk ++ wrappersOf rs)
  properties : ∀ c ∈ m.walk, (m'.decl c).properties = (m.decl c).properties.flatMap (slot rs)
  untouched : ∀ k ∈ ks, k ∉ rs.map Record.candidate →
    slot rs k.prop = [k.prop] ∧ m'.prop k.prop = m.prop k.prop
  dropped : ∀ l₁ r l₂, rs = l₁ ++ r :: l₂ → r.deleted = true → r.Merges m l₁ ∧
    slot rs r.candidate.prop = [] ∧
      m'.prop r.candidate.prop = { m.prop r.candidate.prop with owner := none }
  wrapped : ∀ r ∈ rs, r.deleted = false → ∃ w q, r.Settles n m m' w q ∧ w ∈ m'.walk ∧
    slot rs r.candidate.prop = [q] ∧ ∀ x, (m'.prop x).reference = some w ↔ x = q

theorem Synthesizing.interrupted {z : Customization} {cs : List ClassId}
    (h : Synthesizing n s rs t) (hm : s.model.Described) (hs : s.wrapped = [])
    (hpre : rs.map Record.candidate <+: z.candidates s.model)
    (hr : t.model.Relabelled m' cs) : Interrupted n (z.candidates s.model) s.model rs m' := by
  have hn (q) := (hm.prop q).reference
  have hshape := ((h.rewriting hm.toLinked hn).reshaped hm.toLinked hn).relabelled hn hr
  have hnodup := Customization.nodup_candidates (z := z) hm.toLinked
  have hrecords : (rs.map fun r => r.candidate.prop).Nodup := by
    have := hnodup.sublist (hpre.sublist.map Candidate.prop)
    rwa [List.map_map] at this
  have hperm := hshape.perm_walk hm.toLinked
  refine ⟨hpre, hperm, fun c hc => ?_, fun k hk hnot => ?_, fun l₁ r l₂ hsplit hd => ?_,
    fun r hrmem hd => ?_⟩
  · exact hshape.properties c ((Model.mem_walk hm.toLinked).mp hc)
  · have hne : ∀ r ∈ rs, r.candidate.prop ≠ k.prop := by
      intro r hrmem he
      have hrk := hpre.subset (List.mem_map_of_mem (f := Record.candidate) hrmem)
      rw [← List.inj_on_of_nodup_map hnodup hrk hk he] at hnot
      exact hnot (List.mem_map_of_mem hrmem)
    have hlt := hm.lt_of_mem (Customization.of_mem_candidates hk).1
    exact ⟨slot_of_ne hne, hshape.prop_eq _ hlt hne⟩
  · have hrmem : r ∈ rs := by rw [hsplit]; simp
    have hf := (h.follows hm.toLinked hn hs).2.2 l₁ r l₂ hsplit
    rw [Record.Follows, if_pos hd] at hf
    exact ⟨hf, by rw [slot_of_mem hrecords hrmem, if_pos hd], hshape.dropped r hrmem hd⟩
  · obtain ⟨w, q, hset⟩ := hshape.settled r hrmem hd
    have hw : w ∈ wrappersOf rs := mem_wrappersOf.mpr ⟨r, hrmem, hd, hset.wrapper⟩
    have hq : (m'.prop q).reference = some w := by
      obtain ⟨_, _, _, hq⟩ := hset.standIn
      rw [hq]
      rfl
    refine ⟨w, q, hset, hperm.mem_iff.mpr (List.mem_append_right _ hw), ?_, fun x => ?_⟩
    · rw [slot_of_mem hrecords hrmem, hd, if_neg Bool.false_ne_true, hset.reference]
      rfl
    · constructor
      · exact fun hx => (hshape.existsUnique_reference hw).unique hx hq
      · rintro rfl
        exact hq

namespace Pass

variable {p : Pass} {files : FileTree}

theorem synthesizing_of_run_error (hm : s.model.Described) (h : p.run.run s = .error f t) :
    ∃ u v rs cs, u.model = s.model ∧ u.wrapped = s.wrapped ∧ Synthesizing p.naming u rs v ∧
      rs.map Record.candidate <+: Customization.candidates ⟨p.options, p.control⟩ s.model ∧
        v.model.Relabelled t.model cs := by
  rcases run_eq_error h with h | ⟨ks, u, hc, h⟩
  · exact ⟨s, s, [], [], rfl, rfl, .start, List.nil_prefix,
      p.choose_keepsModel.of_error h ▸ .refl _ _⟩
  have hwrapped : u.wrapped = s.wrapped :=
    (p.choose_keeps PassState.wrapped fun _ _ _ => rfl).of_ok hc
  obtain ⟨hk, hu⟩ := choose_ok hc
  rcases h with h | ⟨rs, v, hs, h⟩
  · -- The candidate that has no name is the one behind those that are dealt with.
    obtain ⟨rs, k, rest, v, hsplit, hsyn, hnow, hfresh, hfail⟩ :=
      synthesizeAll_eq_error hm.toLinked hc h
    obtain ⟨e, rfl, -⟩ := Candidate.synthesize_error hnow.linked (hnow.stands hfresh) hfail
    refine ⟨u, v, rs, [], hu, hwrapped, hsyn, ⟨k :: rest, hsplit.symm.trans hk⟩, ?_⟩
    exact Candidate.model_eq_of_name_error hfail ▸ .refl _ _
  · obtain ⟨x, ns, hx, rfl⟩ := synthesizeAll_ok hs
    obtain ⟨hrs, hsyn⟩ := synthesizing_of_choose hm hc (List.prefix_refl ks) hx
    have hpre : rs.map Record.candidate <+:
        Customization.candidates ⟨p.options, p.control⟩ s.model := by
      rw [hrs, hk]
    rcases h with h | ⟨cs, w, hp, h⟩
    · obtain ⟨cs, hcs⟩ := placeClasses_error h
      exact ⟨u, x, rs, cs, hu, hwrapped, hsyn, hpre, hcs⟩
    · have hrel := placeClasses_relabelled hp
      exact ⟨u, x, rs, cs, hu, hwrapped, hsyn, hpre,
        (p.conclude_keepsModel _).of_error h ▸ hrel⟩

/-- When a run finds no name, every candidate is untouched, dropped or fully wrapped. -/
theorem interrupted_of_name_error {v : Value} (hm : Model.ofValue v = .ok m)
    (h : p.run.run { model := m, files := files } = .error (.name e) t) :
    (∀ (k : Candidate) (s u : PassState) (e : Naming.NameError),
      (k.synthesize p.naming).run s = .error (.name e) u → u.model = s.model) ∧
      ∃ rs, Interrupted p.naming (Customization.candidates ⟨p.options, p.control⟩ m) m rs
        t.model := by
  have hd := Model.described_ofValue hm
  refine ⟨fun _ _ _ _ => Candidate.model_eq_of_name_error, ?_⟩
  obtain ⟨u, v, rs, cs, hu, hw, hsyn, hpre, hr⟩ := synthesizing_of_run_error hd h
  obtain rfl : u.model = m := hu
  exact ⟨rs, hsyn.interrupted hd hw hpre hr⟩

/-- The naming error that stops a run, with the state that it leaves. -/
def stopped? (p : Pass) (m : Model) : Option (Naming.NameError × PassState) :=
  match p.run.run { model := m } with
  | .error (.name e) t => some (e, t)
  | _ => none

theorem stopped?_eq_some {p : Pass} (h : p.stopped? m = some (e, t)) :
    p.run.run { model := m } = .error (.name e) t := by
  unfold stopped? at h
  split at h
  · next hr =>
    cases h
    exact hr
  · cases h

def invoices : Value :=
  .object [("package", .text "shop"), ("classes", .list [
    .object [("name", .text "Order"), ("properties", .list [
      .object [("name", .text "item"), ("repeated", .bool true)]])],
    .object [("name", .text "BulkOrder"), ("base", .text "shop.Order"), ("properties", .list [
      .object [("name", .text "item"), ("repeated", .bool true)]])],
    .object [("name", .text "Invoice"), ("properties", .list [
      .object [("name", .text "item"), ("repeated", .bool true)]])]])]

theorem interrupted_of_invoices_run : ∃ m e t, Model.ofValue invoices = .ok m ∧
    (⟨{}, none, { maxSuffix := .int 0 }⟩ : Pass).run.run { model := m } = .error (.name e) t ∧
      t.model.walk.map t.model.qualifiedName =
        ["shop.Order", "shop.BulkOrder", "shop.Invoice", "shop.Items"] ∧
      (∀ (k : Candidate) (s u : PassState) (e : Naming.NameError),
        (k.synthesize { maxSuffix := .int 0 }).run s = .error (.name e) u → u.model = s.model) ∧
      ∃ rs, Interrupted { maxSuffix := .int 0 } (Customization.candidates ⟨{}, none⟩ m) m rs
        t.model := by
  obtain ⟨m, hm⟩ : ∃ m, (Model.ofValue invoices).toOption = some m :=
    Option.isSome_iff_exists.mp (by decide +kernel)
  have hr : ((Model.ofValue invoices).toOption.bind
      (⟨{}, none, { maxSuffix := .int 0 }⟩ : Pass).stopped?).map
        (fun x => x.2.model.walk.map x.2.model.qualifiedName) =
      some ["shop.Order", "shop.BulkOrder", "shop.Invoice", "shop.Items"] := by decide +kernel
  rw [hm, Option.bind_some] at hr
  obtain ⟨⟨e, t⟩, hr, hnames⟩ := Option.map_eq_some_iff.mp hr
  have hm := toOption_eq_some.mp hm
  have hrun := stopped?_eq_some hr
  have hall := interrupted_of_name_error hm hrun
  exact ⟨m, e, t, hm, hrun, hnames, hall⟩

end Pass
end Enfold
