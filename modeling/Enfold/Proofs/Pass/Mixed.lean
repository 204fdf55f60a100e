import Enfold.Proofs.Binding.Mixed
import Enfold.Proofs.Pass.Restored

/-! # Mixed content in a wrapper of a run

A class whose only elements are mixed content has nothing but attributes beside the reference that a
run puts in their place. Each of its elements that is read keeps all of its text: the wrapper has an
item for each child and the runs of text around them, and both are written as they were read.
-/

namespace Enfold

open PassM Binding

variable {n : Naming} {m m' : Model} {s t : PassState} {c w : ClassId} {p q : PropertyId}
  {rs : List Record} {r : Record}

/-! ### The fields of references -/

/-- No property of a class shares the field of a reference. -/
def Model.RefersApart (m : Model) (c : ClassId) : Prop :=
  ∀ p ∈ (m.decl c).properties, ∀ q ∈ (m.decl c).properties, (m.prop q).reference.isSome = true →
    p ≠ q → (m.prop p).field ≠ (m.prop q).field

theorem Model.RefersApart.congr (h : m.RefersApart c)
    (hc : (m'.decl c).properties ⊆ (m.decl c).properties)
    (hp : ∀ p ∈ (m'.decl c).properties, (m'.prop p).field = (m.prop p).field ∧
      (m'.prop p).reference = (m.prop p).reference) : m'.RefersApart c := by
  intro p hpm q hqm hr hne
  rw [(hp p hpm).1, (hp q hqm).1]
  rw [(hp q hqm).2] at hr
  exact h p (hc hpm) q (hc hqm) hr hne

theorem Candidate.Planned.refersApart {k : Candidate} {plan : WrapperPlan}
    (h : k.Planned n m plan) (hw : m.Wraps k plan m' w q) (hm : m.Linked)
    (ha : m.RefersApart k.owner) : m'.RefersApart k.owner := by
  obtain ⟨_, href⟩ := hw.reference
  have hfield : (m'.prop q).field = plan.referenceField := by rw [href]; rfl
  have hold (p) (hp : p ∈ (m'.decl k.owner).properties) (hpq : p ≠ q) :
      p ∈ (m.decl k.owner).properties ∧ p ≠ k.prop ∧ m'.prop p = m.prop p := by
    rw [hw.owner] at hp
    obtain ⟨x, hx, rfl⟩ := List.mem_map.mp hp
    by_cases hxk : x = k.prop
    · simp [hxk] at hpq
    · rw [if_neg hxk]
      exact ⟨hx, hxk, (Model.agreeBeside_of_wraps hw).prop_eq (hm.lt_of_mem hx) hxk⟩
  intro p hp x hx hr hne
  by_cases hxq : x = q
  · obtain ⟨hp, hpk, hsame⟩ := hold p hp (hxq ▸ hne)
    rw [hxq, hfield, hsame]
    exact h.field_ne p hp hpk
  · obtain ⟨hx, hxk, hx'⟩ := hold x hx hxq
    by_cases hpq : p = q
    · rw [hpq, hfield, hx']
      exact (h.field_ne x hx hxk).symm
    · obtain ⟨hp, -, hp'⟩ := hold p hp hpq
      rw [hp', hx']
      exact ha p hp x hx (hx' ▸ hr) hne

theorem Rewriting.refersApart (h : Rewriting n m rs m') (hm : m.Linked)
    (hn : ∀ p, (m.prop p).reference = none) (hc : c.index < m.classes.size) :
    m'.RefersApart c := by
  induction h with
  | start =>
    intro p _ q _ hr
    simp [hn] at hr
  | @drop rs m' r hrun hk hd ih =>
    have hs := hrun.reshaped hm hn
    have hmem := (hs.mem_of_fresh hm hk).1
    refine ih.congr (fun p hp => ?_) fun p _ => ?_
    · rw [Model.decl_unlink (Model.class_lt_of_mem hmem)] at hp
      split at hp
      · next e => exact e ▸ List.mem_of_mem_erase hp
      · exact hp
    · rw [Model.prop_unlink (hs.linked.lt_of_mem hmem)]
      split
      · next e => rw [e]; exact ⟨rfl, rfl⟩
      · exact ⟨rfl, rfl⟩
  | @wrap rs m' m'' r w q plan hrun hk hd hrw hrq hp hw ih =>
    have hs := hrun.reshaped hm hn
    have hagree := Model.agreeBeside_of_wraps hw
    by_cases hco : c = r.candidate.owner
    · exact hco ▸ hp.refersApart hw hs.linked (hco ▸ ih)
    · have hdecl := hagree.class_eq (Nat.lt_of_lt_of_le hc hs.size_classes_le) hco
      refine ih.congr (hdecl ▸ List.Subset.refl _) fun p hpm => ?_
      rw [hdecl] at hpm
      have hpk : p ≠ r.candidate.prop := by
        rintro rfl
        exact hco (hs.linked.owner_unique hpm (hs.mem_of_fresh hm hk).1)
      rw [hagree.prop_eq (hs.linked.lt_of_mem hpm) hpk]
      exact ⟨rfl, rfl⟩

/-! ### Documents -/

namespace Pass

variable {pass : Pass} {result : PassResult} {e : Xml.Element} {d : Datum}

theorem refersApart_of_run (hm : s.model.Described) (h : pass.run.run s = .ok result t)
    (hc : c ∈ s.model.walk) : t.model.RefersApart c := by
  obtain ⟨ks, u, v, x, -, -, hp, ht, -, -, hr⟩ := run_stages hm h
  have hrel := placeClasses_relabelled hp
  have happart := hr.refersApart hm.toLinked (fun q => (hm.prop q).reference)
    ((Model.mem_walk hm.toLinked).mp hc)
  rw [ht]
  refine happart.congr ?_ fun p _ => ?_
  · obtain ⟨_, _, hd⟩ := hrel.decl c
    rw [hd]
    exact List.Subset.refl _
  · obtain ⟨_, hp⟩ := hrel.prop p
    rw [hp]
    exact ⟨rfl, rfl⟩

/-- The class of a mixed candidate that has nothing else but attributes. -/
structure OwnsMixed (m : Model) (k : Candidate) : Prop where
  kind : (m.prop k.prop).kind = .mixed
  attributes : ∀ p ∈ (m.decl k.owner).properties, p ≠ k.prop → (m.prop p).isAttribute = true

instance (m : Model) (k : Candidate) : Decidable (OwnsMixed m k) :=
  decidable_of_iff ((m.prop k.prop).kind = .mixed ∧
      ∀ p ∈ (m.decl k.owner).properties, p ≠ k.prop → (m.prop p).isAttribute = true)
    ⟨fun ⟨h₁, h₂⟩ => ⟨h₁, h₂⟩, fun h => ⟨h.1, h.2⟩⟩

/-- The reference takes the place of the mixed content, among the attributes. -/
theorem attributes_of_run (hm : s.model.Described) (h : pass.run.run s = .ok result t)
    (hr : r ∈ result.records) (hd : r.deleted = false) (ho : OwnsMixed s.model r.candidate)
    (hq : r.reference = some q) :
    ∃ l l', (t.model.decl r.candidate.owner).properties = l ++ q :: l' ∧
      ∀ x ∈ l ++ l', (t.model.prop x).isAttribute = true := by
  have hs := reshaped_of_described hm h
  have hmem := hs.mem r hr
  have hstay {l : List PropertyId} (hl : ∀ p ∈ l, p ∈ (s.model.decl r.candidate.owner).properties ∧
      p ≠ r.candidate.prop) : l.flatMap (slot result.records) = l ∧
        ∀ p ∈ l, (t.model.prop p).isAttribute = true := by
    have hne {p} (hp : p ∈ l) : ∀ r' ∈ result.records, r'.candidate.prop ≠ p := by
      rintro r' hr' rfl
      have := ho.attributes _ (hl _ hp).1 (hl _ hp).2
      simp [isAttribute_of_run hm h hr'] at this
    refine ⟨?_, fun p hp => ?_⟩
    · rw [List.flatMap_congr fun p hp => slot_of_ne (hne hp), List.flatMap_singleton']
    · rw [hs.prop_eq p (hm.lt_of_mem (hl p hp).1) (hne hp)]
      exact ho.attributes p (hl p hp).1 (hl p hp).2
  obtain ⟨l, l', hprops⟩ := List.append_of_mem hmem
  have hnodup := hm.toLinked.nodup r.candidate.owner
  rw [hprops, List.nodup_middle, List.nodup_cons, List.mem_append, not_or] at hnodup
  obtain ⟨⟨hl, hl'⟩, -⟩ := hnodup
  obtain ⟨hslots, hattr⟩ := hstay fun p hp =>
    ⟨hprops ▸ List.mem_append_left _ hp, fun he => hl (he ▸ hp)⟩
  obtain ⟨hslots', hattr'⟩ := hstay fun p hp =>
    ⟨hprops ▸ List.mem_append_right l (List.mem_cons_of_mem _ hp), fun he => hl' (he ▸ hp)⟩
  have hslot : slot result.records r.candidate.prop = [q] := by
    simp [slot_of_mem (nodup_of_run hm h) hr, hd, hq]
  refine ⟨l, l', ?_, fun x hx => (List.mem_append.mp hx).elim (hattr x) (hattr' x)⟩
  rw [hs.properties _ (Model.class_lt_of_mem hmem), hprops, List.flatMap_append,
    List.flatMap_cons, hslots, hslots', hslot]
  rfl

theorem holdsMixed_of_run (hm : s.model.Described) (h : pass.run.run s = .ok result t)
    (hr : r ∈ result.records) (hd : r.deleted = false) (ho : OwnsMixed s.model r.candidate)
    (hf : (t.model.prop r.candidate.prop).field ≠ textRunsName) :
    ∃ w q, r.wrapper = some w ∧ r.reference = some q ∧
      HoldsMixed t.model r.candidate.owner w q r.candidate.prop := by
  have hs := reshaped_of_described hm h
  obtain ⟨w, q, hset⟩ := hs.settled r hr hd
  have hitems := hset.holdsItems (hm.prop _) (isAttribute_of_run hm h hr)
  obtain ⟨_, _, _, href⟩ := hset.standIn
  refine ⟨w, q, hset.wrapper, hset.reference, ?_, by rw [href]; rfl, by rw [href]; rfl, hitems,
    by rw [hset.moved]; exact ho.kind, hf⟩
  obtain ⟨l, l', hlist, hattr⟩ := attributes_of_run hm h hr hd ho hset.reference
  have howner : r.candidate.owner ∈ s.model.walk :=
    (Model.mem_walk hm.toLinked).mpr (Model.class_lt_of_mem (hs.mem r hr))
  refine ⟨l, l', hlist, fun x hx => ⟨hattr x hx, ?_⟩⟩
  refine refersApart_of_run hm h howner x ?_ q (by simp [hlist]) (by rw [href]; rfl) ?_
  · rw [hlist]
    simp only [List.mem_append, List.mem_cons] at hx ⊢
    exact hx.imp_right Or.inr
  · rintro rfl
    have := hattr x hx
    simp [href, Property.standIn] at this

/-- Mixed content comes back with all its text, unless two values share a field. -/
theorem mixed_restored_of_run {described : Value} (hm : Model.ofValue described = .ok s.model)
    (h : pass.run.run s = .ok result t) (hr : r ∈ result.records) (hd : r.deleted = false)
    (ho : OwnsMixed s.model r.candidate)
    (hf : (t.model.prop r.candidate.prop).field ≠ textRunsName)
    (hreserved : ∀ c ∈ t.model.walk, textField ∉ t.model.fields c ∧ elementField ∉ t.model.fields c)
    (hread : reader t.model e r.candidate.owner = .ok d) :
    ∃ w q fs hs, r.wrapper = some w ∧ r.reference = some q ∧ d = .object r.candidate.owner fs ∧
      Assoc.get? (t.model.prop q).field fs = some (.object w hs) ∧
      KeepsMixed t.model (t.model.prop r.candidate.prop) hs e ∧
      ∀ gs tag, SameBeside elementField fs gs →
        (∀ y, writeObject t.model r.candidate.owner (fieldWriters t.model gs) tag = .ok y →
          y.tag = tag ∧ MixedRestored t.model (t.model.prop r.candidate.prop) e y) ∧
        (t.model.SharesNoField →
          ∃ y, writeObject t.model r.candidate.owner (fieldWriters t.model gs) tag = .ok y) := by
  have hdescribed := Model.described_ofValue hm
  obtain ⟨w, q, hw, hq, hmixed⟩ := holdsMixed_of_run hdescribed h hr hd ho hf
  have hmem := (reshaped_of_described hdescribed h).mem r hr
  have howner : r.candidate.owner ∈ t.model.walk := mem_walk_of_run hdescribed h
    ((Model.mem_walk hdescribed.toLinked).mpr (Model.class_lt_of_mem hmem))
  obtain ⟨fs, hs, rfl, hfield, hkeeps, hwrite⟩ := mixed_of_reader hmixed howner hreserved hread
  refine ⟨w, q, fs, hs, hw, hq, rfl, hfield, hkeeps, fun gs tag hgs =>
    ⟨fun y hy => ?_, fun ha => ?_⟩⟩
  · exact hwrite gs tag y hgs hy
  · obtain ⟨_, ⟨⟩, -, hall⟩ :=
      reader_restored (wrapsItems_of_run hdescribed h) ha e howner _ hread
    obtain ⟨y, hy, -⟩ := hall gs tag hgs
    exact ⟨y, hy⟩

/-- Paragraphs with bold parts, whose kind stands twice, in an attribute and in `field`. -/
def paragraphsWith (field : String) : Value :=
  .object [("package", .text "doc"), ("classes", .list [
    .object [("name", .text "Para"), ("properties", .list [
      .object [("name", .text "id"), ("attribute", .bool true)],
      .object [("name", .text "content"), ("kind", .text "mixed"), ("repeated", .bool true),
        ("substitutes", .object [("b", .text "Bold")])]])],
    .object [("name", .text "Bold"), ("properties", .list [
      .object [("name", .text "kind"), ("attribute", .bool true)],
      .object [("name", .text "kind"), ("type", .text "Kind"), ("field", .text field)]])],
    .object [("name", .text "Kind")]])]

def paragraph : Xml.Element where
  tag := "Para"
  attributes := [("id", "1")]
  text := "Hello "
  children := [{ tag := "b", attributes := [("kind", "x")], children := [{ tag := "kind" }] },
    { tag := "i", text := "you", tail := " all!" }]

theorem mixed_restored_of_paragraph : ∃ m result t r d y,
    Model.ofValue (paragraphsWith "sort") = .ok m ∧
    (⟨{ collection := .text "deque", instantiate := .text "lazy" }, none, {}⟩ : Pass).run.run
      { model := m } = .ok result t ∧
    r ∈ result.records ∧ r.deleted = false ∧ OwnsMixed m r.candidate ∧
      (t.model.prop r.candidate.prop).field ≠ textRunsName ∧ t.model.SharesNoField ∧
      reader t.model paragraph r.candidate.owner = .ok d ∧
      (∃ hs, KeepsMixed t.model (t.model.prop r.candidate.prop) hs paragraph) ∧
      marshalElement t.model d = .ok y ∧
      MixedRestored t.model (t.model.prop r.candidate.prop) paragraph y := by
  obtain ⟨m, result, t, hm, h, hapart, r, hr, hd, ho, hf, hread⟩ :=
    exists_run_of_ran? ⟨{ collection := .text "deque", instantiate := .text "lazy" }, none, {}⟩
      (paragraphsWith "sort") (fun m result t => t.model.SharesNoField ∧
        ∃ r ∈ result.records, r.deleted = false ∧ OwnsMixed m r.candidate ∧
          (t.model.prop r.candidate.prop).field ≠ textRunsName ∧
          (reader t.model paragraph r.candidate.owner).toOption.isSome = true)
    (by decide +kernel)
  obtain ⟨d, hread⟩ := Option.isSome_iff_exists.mp hread
  have hread := toOption_eq_some.mp hread
  obtain ⟨w, q, fs, hs, -, -, rfl, -, hkeeps, hwrite⟩ :=
    mixed_restored_of_run (s := { model := m }) hm h hr hd ho hf hapart.reserved hread
  obtain ⟨hrestored, hwritten⟩ := hwrite fs (boundElement t.model r.candidate.owner) (.refl _ _)
  obtain ⟨y, hy⟩ := hwritten hapart
  exact ⟨m, result, t, r, _, y, hm, h, hr, hd, ho, hf, hapart, hread, ⟨hs, hkeeps⟩, hy,
    (hrestored y hy).2⟩

/-- Two kinds in one field cannot be written. -/
theorem shared_field_unwritable : ¬ ∀ (described : Value) (pass : Pass) (s t : PassState)
    (result : PassResult) (r : Record) (e : Xml.Element) (d : Datum),
    Model.ofValue described = .ok s.model → pass.run.run s = .ok result t →
      r ∈ result.records → r.deleted = false → OwnsMixed s.model r.candidate →
      (s.model.prop r.candidate.prop).name ≠ textRunsName →
      (t.model.prop r.candidate.prop).field ≠ textRunsName →
      (∀ c ∈ s.model.walk, textField ∉ s.model.fields c ∧ elementField ∉ s.model.fields c) →
      (∀ c ∈ t.model.walk, textField ∉ t.model.fields c ∧ elementField ∉ t.model.fields c) →
      rootClass t.model none e.tag = .ok r.candidate.owner →
      unmarshalElement t.model none e = .ok d → ∃ y, marshalElement t.model d = .ok y := by
  intro claim
  obtain ⟨m, result, t, hm, h, hreserved, hreserved', r, hr, hd, ho, hn, hf, hroot, hread⟩ :=
    exists_run_of_ran? ⟨{}, none, {}⟩ (paragraphsWith "kind") (fun m result t =>
        (∀ c ∈ m.walk, textField ∉ m.fields c ∧ elementField ∉ m.fields c) ∧
        (∀ c ∈ t.model.walk, textField ∉ t.model.fields c ∧ elementField ∉ t.model.fields c) ∧
        ∃ r ∈ result.records, r.deleted = false ∧ OwnsMixed m r.candidate ∧
          (m.prop r.candidate.prop).name ≠ textRunsName ∧
          (t.model.prop r.candidate.prop).field ≠ textRunsName ∧
          (rootClass t.model none paragraph.tag).toOption = some r.candidate.owner ∧
          ((unmarshalElement t.model none paragraph).toOption.any fun d =>
            (marshalElement t.model d).toOption.isNone) = true)
    (by decide +kernel)
  obtain ⟨d, hread, hnone⟩ := (Option.any_eq_true _ _).mp hread
  obtain ⟨y, hy⟩ := claim _ _ { model := m } t result r paragraph d hm h hr hd ho hn hf hreserved
    hreserved' (toOption_eq_some.mp hroot) (toOption_eq_some.mp hread)
  rw [hy] at hnone
  cases hnone

end Pass
end Enfold
