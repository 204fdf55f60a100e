import Enfold.Proofs.Pass.Interrupted
import Enfold.Proofs.Pass.Remains

/-! # Fields stay apart

The field of a reference is chosen while the candidates behind it still hold their fields, and those
before it have left them. It is free among the fields that its class lists at that time, so no step
of a run makes two fields of a class equal, and neither does the renaming that comes after.
-/

namespace Enfold

open PassM

variable {m m' m'' : Model} {s t : PassState} {cs : List ClassId}

/-- A class whose fields were distinct still has distinct fields. -/
def Model.KeepsFieldsApart (m m' : Model) : Prop :=
  ∀ c ∈ m.walk, (m.fields c).Nodup → (m'.fields c).Nodup

theorem Model.KeepsFieldsApart.relabelled (h : m.KeepsFieldsApart m')
    (hr : m'.Relabelled m'' cs) : m.KeepsFieldsApart m'' := by
  intro c hc hf
  rw [hr.fields_eq]
  exact h c hc hf

namespace Pass

variable {p : Pass} {result : PassResult} {f : Failure}

theorem keepsFieldsApart_of_synthesizing {n : Naming} {rs : List Record} {u v : PassState}
    (hm : s.model.Described) (hu : u.model = s.model) (h : Synthesizing n u rs v) :
    s.model.KeepsFieldsApart v.model := by
  intro c hc hf
  have hlt := (Model.mem_walk hm.toLinked).mp hc
  rw [← hu] at hm hlt hf
  have hn (q) := (hm.prop q).reference
  exact (h.rewriting hm.toLinked hn).nodup_fields hm.toLinked hn hlt hf

/-- However a run ends, classes have distinct fields if they had them before. -/
theorem fields_apart {v : Value} (hm : Model.ofValue v = .ok s.model) :
    (∀ ks u done rs x, p.choose.run s = .ok ks u → done <+: ks →
      (done.mapM (Candidate.synthesize p.naming)).run u = .ok rs x →
        s.model.KeepsFieldsApart x.model) ∧
    (∀ result t, p.run.run s = .ok result t → s.model.KeepsFieldsApart t.model) ∧
    ∀ f t, p.run.run s = .error f t → s.model.KeepsFieldsApart t.model := by
  have hd := Model.described_ofValue hm
  refine ⟨?_, ?_, ?_⟩
  · intro ks u done rs x hc hdone hx
    obtain ⟨-, hsyn⟩ := synthesizing_of_choose hd hc hdone hx
    obtain ⟨-, hu⟩ := choose_ok hc
    exact keepsFieldsApart_of_synthesizing hd hu hsyn
  · intro result t h c hc hf
    exact nodup_fields_of_run hd h hc hf
  · intro f t h
    obtain ⟨u, x, rs, cs, hu, -, hsyn, -, hr⟩ := synthesizing_of_run_error hd h
    exact (keepsFieldsApart_of_synthesizing hd hu hsyn).relabelled hr

/-- Items that would be referred to by a field that is there already, twice. -/
def clashingItems : Value :=
  .object [("package", .text "shop"), ("classes", .list [
    .object [("name", .text "Order"), ("properties", .list [
      .object [("name", .text "count"), ("field", .text "items")],
      .object [("name", .text "item"), ("repeated", .bool true)]])],
    .object [("name", .text "BulkOrder"), ("base", .text "shop.Order"), ("properties", .list [
      .object [("name", .text "item"), ("repeated", .bool true)]])],
    .object [("name", .text "Invoice"), ("properties", .list [
      .object [("name", .text "total"), ("field", .text "items1")],
      .object [("name", .text "taxes"), ("field", .text "items11")],
      .object [("name", .text "item"), ("repeated", .bool true)]])]])]

theorem fields_apart_of_clashingItems :
    (∃ m result t, Model.ofValue clashingItems = .ok m ∧ (∀ c ∈ m.walk, (m.fields c).Nodup) ∧
      (⟨{}, none, {}⟩ : Pass).run.run { model := m } = .ok result t ∧
      t.model.walk.map t.model.fields = [["items", "items1"], [],
        ["items1", "items11", "items12"], ["item"], ["item"]] ∧
      ∀ c ∈ m.walk, (t.model.fields c).Nodup) ∧
    ∃ m f t, Model.ofValue clashingItems = .ok m ∧ (∀ c ∈ m.walk, (m.fields c).Nodup) ∧
      (⟨{}, none, { maxSuffix := .int 1 }⟩ : Pass).run.run { model := m } = .error f t ∧
      t.model.walk.map t.model.fields = [["items", "items1"], [],
        ["items1", "items11", "item"], ["item"]] ∧
      ∀ c ∈ m.walk, (t.model.fields c).Nodup := by
  constructor
  · obtain ⟨m, result, t, hm, hr, hf, hfields⟩ := exists_run_of_ran? ⟨{}, none, {}⟩ clashingItems
      (fun m _ t => (∀ c ∈ m.walk, (m.fields c).Nodup) ∧
        t.model.walk.map t.model.fields = [["items", "items1"], [],
          ["items1", "items11", "items12"], ["item"], ["item"]]) (by decide +kernel)
    have hall := fields_apart (p := ⟨{}, none, {}⟩) (s := { model := m }) hm
    exact ⟨m, result, t, hm, hf, hr, hfields, fun c hc => hall.2.1 result t hr c hc (hf c hc)⟩
  · have h : ((Model.ofValue clashingItems).toOption.any fun m =>
        ((⟨{}, none, { maxSuffix := .int 1 }⟩ : Pass).stopped? m).any fun x =>
          (∀ c ∈ m.walk, (m.fields c).Nodup) ∧
          x.2.model.walk.map x.2.model.fields = [["items", "items1"], [],
            ["items1", "items11", "item"], ["item"]]) = true := by decide +kernel
    obtain ⟨m, hm, h⟩ := (Option.any_eq_true _ _).mp h
    obtain ⟨⟨e, t⟩, hx, h⟩ := (Option.any_eq_true _ _).mp h
    obtain ⟨hf, hfields⟩ := of_decide_eq_true h
    have hm := toOption_eq_some.mp hm
    have hr := stopped?_eq_some hx
    have hall := fields_apart (p := ⟨{}, none, { maxSuffix := .int 1 }⟩) (s := { model := m }) hm
    exact ⟨m, .name e, t, hm, hf, hr, hfields, fun c hc => hall.2.2 _ t hr c hc (hf c hc)⟩

end Pass
end Enfold
