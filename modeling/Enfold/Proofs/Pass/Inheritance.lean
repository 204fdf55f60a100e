import Enfold.Proofs.Model.Ancestors
import Enfold.Proofs.Pass.Run

/-! # Inherited duplicates

A candidate is dropped exactly if one that was chosen before it has the same element and belongs to
a class that its owner descends from. One that is chosen later does not count, so the outcome
depends on the order in which the classes are declared.
-/

namespace Enfold

open PassM

variable {n : Naming} {m m' : Model} {s t u : PassState} {k k' : Candidate} {r : Record}
  {rs : List Record} {c : ClassId}

/-- The owner descends from a class that has a candidate for the same element. -/
def Candidate.Redeclares (m : Model) (k k' : Candidate) : Prop :=
  m.DescendsFrom k.owner k'.owner ∧ (m.prop k'.prop).name = (m.prop k.prop).name

instance (m : Model) (k k' : Candidate) : Decidable (k.Redeclares m k') :=
  decidable_of_iff (k'.owner ∈ m.ancestors k.owner ∧ (m.prop k'.prop).name = (m.prop k.prop).name)
    (and_congr_left' Model.mem_ancestors)

theorem Candidate.Redeclares.trans {k'' : Candidate} (h : k.Redeclares m k')
    (h' : k'.Redeclares m k'') : k.Redeclares m k'' :=
  ⟨h.1.trans h'.1, h'.2.trans h.2⟩

theorem Rewriting.base_eq (h : Rewriting n m rs m') (hm : m.Linked)
    (hn : ∀ p, (m.prop p).reference = none) (c : ClassId) :
    (m'.decl c).base = (m.decl c).base := by
  by_cases hc : c.index < m.classes.size
  · obtain ⟨_, hd⟩ := h.decl_eq hm hn hc
    rw [hd]
  rw [Model.decl_of_size_le (Nat.le_of_not_lt hc)]
  -- A class that a run has added extends no other.
  induction h with
  | start => rw [Model.decl_of_size_le (Nat.le_of_not_lt hc)]
  | drop hrun hk hd ih =>
    rw [Model.decl_unlink (Model.class_lt_of_mem ((hrun.reshaped hm hn).mem_of_fresh hm hk).1),
      if_neg, ih]
    rintro rfl
    exact hc (Model.class_lt_of_mem hk.mem)
  | @wrap rs m' m'' r w q plan hrun hk hd hrw hrq hp hw ih =>
    by_cases hcw : c = w
    · obtain ⟨_, hdecl⟩ := hw.wrapper
      rw [hcw, hdecl]
      rfl
    · rw [hw.class_eq hcw, ih]
      rintro rfl
      exact hc (Model.class_lt_of_mem hk.mem)

/-! ### The table of wrappers -/

structure Tabled (m : Model) (rs : List Record) (t : PassState) : Prop where
  sound : ∀ {c name w}, Assoc.get? (c, name) t.wrapped = some w → ∃ r ∈ rs, r.deleted = false ∧
    r.wrapper = some w ∧ r.candidate.owner = c ∧ (m.prop r.candidate.prop).name = name
  complete : ∀ r ∈ rs, r.deleted = false →
    (Assoc.get? (r.candidate.owner, (m.prop r.candidate.prop).name) t.wrapped).isSome

namespace Tabled

theorem drop (h : Tabled m rs t) (hd : r.deleted = true) (hu : u.wrapped = t.wrapped) :
    Tabled m (rs ++ [r]) u where
  sound hw := by
    rw [hu] at hw
    obtain ⟨r', hr, h'⟩ := h.sound hw
    exact ⟨r', List.mem_append_left _ hr, h'⟩
  complete r' hr hd' := by
    rw [hu]
    rcases List.mem_append.mp hr with hr | hr
    · exact h.complete r' hr hd'
    · rw [List.mem_singleton.mp hr, hd] at hd'
      cases hd'

theorem wrap {w : ClassId} (h : Tabled m rs t) (hd : r.deleted = false) (hw : r.wrapper = some w)
    (hu : u.wrapped =
      Assoc.put (r.candidate.owner, (m.prop r.candidate.prop).name) w t.wrapped) :
    Tabled m (rs ++ [r]) u where
  sound {c name w'} he := by
    rw [hu] at he
    by_cases hkey : (r.candidate.owner, (m.prop r.candidate.prop).name) = (c, name)
    · rw [hkey, Assoc.get?_put_self] at he
      cases he
      cases hkey
      exact ⟨r, by simp, hd, hw, rfl, rfl⟩
    · rw [Assoc.get?_put_of_ne hkey] at he
      obtain ⟨r', hr, h'⟩ := h.sound he
      exact ⟨r', List.mem_append_left _ hr, h'⟩
  complete r' hr hd' := by
    rw [hu]
    by_cases hkey : (r.candidate.owner, (m.prop r.candidate.prop).name) =
        (r'.candidate.owner, (m.prop r'.candidate.prop).name)
    · rw [hkey, Assoc.get?_put_self]
      rfl
    · rw [Assoc.get?_put_of_ne hkey]
      rcases List.mem_append.mp hr with hr | hr
      · exact h.complete r' hr hd'
      · exact absurd (List.mem_singleton.mp hr ▸ rfl) hkey

theorem of_inherited {w : ClassId} (h : Tabled m rs t)
    (hbase : ∀ c, (t.model.decl c).base = (m.decl c).base)
    (hprop : t.model.prop k.prop = m.prop k.prop) (hi : k.inherited? t = some w) :
    ∃ r ∈ rs, r.deleted = false ∧ r.wrapper = some w ∧ k.Redeclares m r.candidate := by
  obtain ⟨b, hb, he⟩ := List.exists_of_findSome?_eq_some hi
  obtain ⟨r, hr, hd, hw, ho, hname⟩ := h.sound he
  rw [Model.mem_ancestors_congr hbase, Model.mem_ancestors] at hb
  exact ⟨r, hr, hd, hw, ho ▸ hb, by rw [hname, hprop]⟩

theorem inherited_isSome (h : Tabled m rs t)
    (hbase : ∀ c, (t.model.decl c).base = (m.decl c).base)
    (hprop : t.model.prop k.prop = m.prop k.prop) (hr : r ∈ rs) (hd : r.deleted = false)
    (hk : k.Redeclares m r.candidate) : (k.inherited? t).isSome := by
  refine List.findSome?_isSome_iff.mpr ⟨r.candidate.owner, ?_, ?_⟩
  · rw [Model.mem_ancestors_congr hbase, Model.mem_ancestors]
    exact hk.1
  · rw [hprop, ← hk.2]
    exact h.complete r hr hd

end Tabled

/-! ### What is dropped -/

/-- A dropped candidate has the wrapper of an earlier record of a base class. -/
structure Record.Merges (m : Model) (earlier : List Record) (r : Record) : Prop where
  reference : r.reference = none
  wrapper : ∃ r' ∈ earlier, r'.deleted = false ∧ r'.wrapper = r.wrapper ∧
    r.candidate.Redeclares m r'.candidate

/-- A record merges with an earlier one, or none has its element for a base class. -/
def Record.Follows (m : Model) (earlier : List Record) (r : Record) : Prop :=
  if r.deleted then r.Merges m earlier
  else ∀ r' ∈ earlier, r'.deleted = false → ¬ r.candidate.Redeclares m r'.candidate

theorem forall_split_append {α : Type} {P : List α → α → Prop} {l : List α} {a : α}
    (h : ∀ l₁ b l₂, l = l₁ ++ b :: l₂ → P l₁ b) (ha : P l a) :
    ∀ l₁ b l₂, l ++ [a] = l₁ ++ b :: l₂ → P l₁ b := by
  intro l₁ b l₂ e
  rcases List.eq_nil_or_concat l₂ with rfl | ⟨l₃, c, rfl⟩
  · obtain ⟨rfl, hb⟩ := List.append_inj' e rfl
    obtain rfl := List.singleton_inj.mp hb
    exact ha
  · rw [List.concat_eq_append, ← List.cons_append, ← List.append_assoc] at e
    exact h l₁ b l₃ (List.append_inj' e rfl).1

theorem Synthesizing.follows (h : Synthesizing n s rs t) (hm : s.model.Linked)
    (hn : ∀ p, (s.model.prop p).reference = none) (hs : s.wrapped = []) :
    Tabled s.model rs t ∧ t.counters.deletions = s.counters.deletions + rs.countP Record.deleted ∧
      ∀ l₁ r l₂, rs = l₁ ++ r :: l₂ → r.Follows s.model l₁ := by
  induction h with
  | start =>
    refine ⟨⟨fun hw => ?_, by simp⟩, by simp, by simp⟩
    rw [hs] at hw
    cases hw
  | @step rs t u r hrun hk hstep ih =>
    obtain ⟨htable, hcount, hfollows⟩ := ih
    obtain ⟨-, -, hprop, hcase⟩ := hrun.step_ok hm hn hk hstep
    have hbase := (hrun.rewriting hm hn).base_eq hm hn
    rcases hcase with hdrop | ⟨plan, w, q, hwrap⟩
    · obtain ⟨w, hi, hr⟩ := hdrop.inherited
      have hd : r.deleted = true := by rw [hr]
      obtain ⟨r', hr', hd', hw', hre⟩ := htable.of_inherited hbase hprop hi
      refine ⟨htable.drop hd hdrop.wrapped, ?_, forall_split_append hfollows ?_⟩
      · rw [hdrop.deletions, hcount, List.countP_append, List.countP_singleton, if_pos hd]
        omega
      · rw [Record.Follows, if_pos hd]
        exact ⟨by rw [hr], r', hr', hd', by rw [hw', hr], hre⟩
    · have hd : r.deleted = false := by rw [hwrap.record]
      refine ⟨htable.wrap hd (by rw [hwrap.record]) (hprop ▸ hwrap.wrapped), ?_,
        forall_split_append hfollows ?_⟩
      · rw [hwrap.deletions, hcount, List.countP_append, List.countP_singleton, hd]
        simp
      · rw [Record.Follows, hd, if_neg Bool.false_ne_true]
        intro r' hr' hd' hre
        have := htable.inherited_isSome hbase hprop hr' hd' hre
        rw [hwrap.inherited] at this
        cases this

theorem deleted_iff_of_follows (h : ∀ l₁ r l₂, rs = l₁ ++ r :: l₂ → r.Follows m l₁)
    {l₁ l₂ : List Record} (hr : rs = l₁ ++ r :: l₂) :
    r.deleted = true ↔ ∃ r' ∈ l₁, r.candidate.Redeclares m r'.candidate := by
  have hf := h l₁ r l₂ hr
  rw [Record.Follows] at hf
  constructor
  · intro hd
    rw [if_pos hd] at hf
    obtain ⟨r', hr', -, -, hre⟩ := hf.wrapper
    exact ⟨r', hr', hre⟩
  · rintro ⟨r', hr', hre⟩
    by_contra hd
    rw [if_neg hd] at hf
    cases hd' : r'.deleted with
    | false => exact hf r' hr' hd' hre
    | true =>
      -- What the earlier record has merged with is of a base class as well.
      obtain ⟨a, b, rfl⟩ := List.append_of_mem hr'
      have hf' := h a r' (b ++ r :: l₂) (by rw [hr]; simp)
      rw [Record.Follows, if_pos hd'] at hf'
      obtain ⟨r'', hr'', hd'', -, hre'⟩ := hf'.wrapper
      exact hf r'' (List.mem_append_left _ hr'') hd'' (hre.trans hre')

namespace Pass

variable {p : Pass} {result : PassResult} {files : FileTree}

/-- A candidate is dropped exactly if an earlier one has its element for a base class. -/
theorem deleted_iff_of_run {v : Value} (hm : Model.ofValue v = .ok m)
    (h : p.run.run { model := m, files := files } = .ok result t) :
    result.records.map Record.candidate = Customization.candidates ⟨p.options, p.control⟩ m ∧
      (∀ l₁ r l₂, result.records = l₁ ++ r :: l₂ →
        (r.deleted = true ↔ ∃ r' ∈ l₁, r.candidate.Redeclares m r'.candidate) ∧
          (r.deleted = true → r.Merges m l₁ ∧ (t.model.prop r.candidate.prop).owner = none)) ∧
      result.counters.deletions = result.records.countP Record.deleted ∧
      t.model.walk.Perm (m.walk ++ result.wrappers) := by
  have hd := Model.described_ofValue hm
  obtain ⟨ks, u, v, w, hc, hs, hp, -, hcount, -⟩ := run_ok h
  obtain ⟨hk, hu⟩ := choose_ok hc
  obtain ⟨x, ns, hx, hv⟩ := synthesizeAll_ok hs
  obtain ⟨hrs, hsyn⟩ := synthesizing_of_choose hd hc (List.prefix_refl ks) hx
  have hstart : u.wrapped = [] := (p.choose_keeps PassState.wrapped fun _ _ _ => rfl).of_ok hc
  have hzero : u.counters.deletions = 0 :=
    (p.choose_keeps (fun s => s.counters.deletions) fun _ _ _ => rfl).of_ok hc
  have hend : w.counters.deletions = v.counters.deletions :=
    (placeClasses_keeps (fun s => s.counters.deletions) (fun _ _ _ _ => rfl) _).of_ok hp
  obtain ⟨-, hdel, hfollows⟩ := hsyn.follows (hu ▸ hd.toLinked)
    (fun q => by rw [hu]; exact (hd.prop q).reference) hstart
  rw [hu] at hfollows
  have hshape := reshaped_of_described hd h
  refine ⟨hrs.trans hk, fun l₁ r l₂ hr => ⟨deleted_iff_of_follows hfollows hr, fun hdr => ?_⟩, ?_,
    hshape.perm_walk hd.toLinked⟩
  · have hf := hfollows l₁ r l₂ hr
    rw [Record.Follows, if_pos hdr] at hf
    refine ⟨hf, ?_⟩
    rw [hshape.dropped r (by rw [hr]; simp) hdr]
  · rw [hcount, hend, hv, hdel, hzero, Int.zero_add]

theorem deleted_iff_of_orders_run : ∃ m result t, Model.ofValue orders = .ok m ∧
    (⟨{}, none, {}⟩ : Pass).run.run { model := m } = .ok result t ∧
      result.records.map Record.deleted = [false, false, true] ∧
      result.records.map Record.candidate = Customization.candidates ⟨{}, none⟩ m ∧
      (∀ l₁ r l₂, result.records = l₁ ++ r :: l₂ →
        (r.deleted = true ↔ ∃ r' ∈ l₁, r.candidate.Redeclares m r'.candidate) ∧
          (r.deleted = true → r.Merges m l₁ ∧ (t.model.prop r.candidate.prop).owner = none)) ∧
      result.counters.deletions = result.records.countP Record.deleted ∧
      t.model.walk.Perm (m.walk ++ result.wrappers) := by
  obtain ⟨m, result, t, hm, hr, hd⟩ := exists_run_of_ran? ⟨{}, none, {}⟩ orders
    (fun _ result _ => result.records.map Record.deleted = [false, false, true]) (by decide +kernel)
  have hall := deleted_iff_of_run hm hr
  exact ⟨m, result, t, hm, hr, hd, hall⟩

/-- Orders in bulk that list items once more, before the orders that they extend. -/
def bulkFirst : Value :=
  .object [("package", .text "shop"), ("classes", .list [
    .object [("name", .text "BulkOrder"), ("base", .text "shop.Order"), ("properties", .list [
      .object [("name", .text "item"), ("repeated", .bool true)]])],
    .object [("name", .text "Order"), ("properties", .list [
      .object [("name", .text "item"), ("repeated", .bool true)]])]])]

/-- A class declared before the one it extends keeps its own element. -/
theorem redeclared_not_deleted : ¬ ∀ (v : Value) (m : Model) (p : Pass) (files : FileTree)
    (t : PassState) (result : PassResult), Model.ofValue v = .ok m →
    (∀ c ∈ m.walk, c ∉ m.ancestors c) →
    p.run.run { model := m, files := files } = .ok result t →
      ∀ r ∈ result.records, ∀ r' ∈ result.records, r.candidate.Redeclares m r'.candidate →
        r.deleted = true := by
  intro claim
  obtain ⟨m, result, t, hm, hrun, hacyclic, r, hr, r', hr', hre, hd⟩ :=
    exists_run_of_ran? ⟨{}, none, {}⟩ bulkFirst (fun m result _ =>
      (∀ c ∈ m.walk, c ∉ m.ancestors c) ∧ ∃ r ∈ result.records, ∃ r' ∈ result.records,
        r.candidate.Redeclares m r'.candidate ∧ r.deleted = false) (by decide +kernel)
  have := claim bulkFirst m _ [] t result hm hacyclic hrun r hr r' hr' hre
  rw [hd] at this
  cases this

end Pass
end Enfold
