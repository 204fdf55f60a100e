import Enfold.Proofs.Pass.Transparent

/-! # Documents after something was dropped

A run that drops a redeclared property leaves it to the base class to hold the elements, but the
elements of a class are read by its own properties alone. So wrapping stays transparent to the
documents in which nothing belongs to a dropped property, and an element that holds a child for
which no other property is left is rejected.
-/

namespace Enfold

open PassM Binding

variable {m m' : Model} {s t : PassState} {c : ClassId} {p q : PropertyId} {k : Xml.Element}
  {dropped : List PropertyId}

namespace Binding

theorem Place.takes_eq (h : Place m m' p q) (tag : String) : takes m' q tag = takes m p tag := by
  rcases h.kept_or_wrapped with hx | hw
  · rw [takes, takes, hx, h.reference]
  · obtain ⟨w, hr, hlist⟩ := hw.reference
    rw [takes, takes, hw.isAttribute, hw.ne_attribute, hr, h.reference]
    dsimp only
    rw [hlist, List.any_cons, List.any_nil, Bool.or_false, takesItem, takesItem, hw.content.kind,
      hw.content.accepts]

theorem mem_childReaders {es : List Xml.Element} (hk : k ∈ es) :
    ∃ x ∈ childReaders m es, x.element = k := by
  rw [← element_childReaders (m := m) es] at hk
  exact List.mem_map.mp hk

theorem reader_error (h : m.RewrappedBut dropped m') (hc : c ∈ m.walk) {e : Xml.Element}
    (hk : k ∈ e.children) (hn : ∀ p ∈ m.kept dropped c, takes m p k.tag = false) :
    ∃ err, reader m' e c = .error err := by
  obtain ⟨tag, attributes, text, tail, children⟩ := e
  obtain ⟨x, hx, rfl⟩ := mem_childReaders (m := m') hk
  refine readObject_error (h.isWrapper c hc).2 hx fun q hq => ?_
  obtain ⟨p, hp, hpq⟩ := exists_left_of_forall₂ (h.places c hc) hq
  rw [hpq.takes_eq, hn p hp]

end Binding

namespace Pass

variable {pass : Pass} {result : PassResult}

/-- A document without dropped properties is treated as before the run, and one whose root has them
is rejected. -/
theorem spared_documents_of_run {v : Value} {asked : Option String}
    (hm : Model.ofValue v = .ok s.model) (h : pass.run.run s = .ok result t)
    (hu : Unobtrusive s.model t.model (keptOf result.records) result.renamed)
    (ha : asked.filter (· ≠ "") = none ∨
      ∃ c ∈ s.model.walk, asked = some (s.model.qualifiedName c)) (e : Xml.Element) :
    ((∀ c, rootClass s.model asked e.tag = .ok c →
        spares s.model (droppedOf result.records) e c = true) →
      Agree (fun d d' => ∃ x, marshalElement s.model d = .ok x ∧ marshalElement t.model d' = .ok x)
        (unmarshalElement s.model asked e) (unmarshalElement t.model asked e)) ∧
      ∀ c, rootClass s.model asked e.tag = .ok c →
        (∃ k ∈ e.children, ∀ p ∈ s.model.kept (droppedOf result.records) c,
          takes s.model p k.tag = false) →
        ∃ err, unmarshalElement t.model asked e = .error err := by
  have hd := Model.described_ofValue hm
  have hre := rewrappedBut_of_unobtrusive hd h hu
  have hroot := rootClass_of_unobtrusive hd h hu e.tag ha
  refine ⟨unmarshalElement_alike_of_spares hre hroot, ?_⟩
  rintro c hc ⟨k, hk, hn⟩
  obtain ⟨err, he⟩ := reader_error hre (mem_walk_of_rootClass hc) hk hn
  refine ⟨err, ?_⟩
  rw [unmarshalElement, hroot, hc]
  exact he

/-- Orders with items, and orders in bulk that list items once more. -/
def bulkLast : Value :=
  .object [("package", .text "shop"), ("classes", .list [
    .object [("name", .text "Order"), ("properties", .list [
      .object [("name", .text "item"), ("repeated", .bool true)]])],
    .object [("name", .text "BulkOrder"), ("base", .text "shop.Order"), ("properties", .list [
      .object [("name", .text "item"), ("repeated", .bool true)]])]])]

def orderOfOne : Xml.Element where
  tag := "Order"
  children := [{ tag := "item", text := "a" }]

def bulkOfOne : Xml.Element where
  tag := "BulkOrder"
  children := [{ tag := "item", text := "a" }]

theorem spared_documents_of_bulkLast_run : ∃ m result t, Model.ofValue bulkLast = .ok m ∧
    (⟨{}, none, {}⟩ : Pass).run.run { model := m } = .ok result t ∧
      (droppedOf result.records).length = 1 ∧
      (∃ d d' x, unmarshalElement m none orderOfOne = .ok d ∧
        unmarshalElement t.model none orderOfOne = .ok d' ∧
          marshalElement m d = .ok x ∧ marshalElement t.model d' = .ok x) ∧
      (unmarshalElement m none bulkOfOne).isOk = true ∧
      ∃ err, unmarshalElement t.model none bulkOfOne = .error err := by
  obtain ⟨m, result, t, hm, hr, hlength, hu, ⟨c, hc, hs⟩, hok, ⟨b, hb, hn⟩, hbulk⟩ :=
    exists_run_of_ran? ⟨{}, none, {}⟩ bulkLast (fun m result t =>
      (droppedOf result.records).length = 1 ∧
      Unobtrusive m t.model (keptOf result.records) result.renamed ∧
      (∃ c ∈ (rootClass m none orderOfOne.tag).toOption,
        spares m (droppedOf result.records) orderOfOne c = true) ∧
      (unmarshalElement m none orderOfOne).isOk = true ∧
      (∃ c ∈ (rootClass m none bulkOfOne.tag).toOption, ∃ k ∈ bulkOfOne.children,
        ∀ p ∈ m.kept (droppedOf result.records) c, takes m p k.tag = false) ∧
      (unmarshalElement m none bulkOfOne).isOk = true) (by decide +kernel)
  have hc := toOption_eq_some.mp hc
  have hb := toOption_eq_some.mp hb
  have hspared := (spared_documents_of_run hm hr hu (Or.inl rfl) orderOfOne).1 fun c' hc' => by
    obtain rfl := Except.ok.inj (hc.symm.trans hc')
    exact hs
  have hrejected := (spared_documents_of_run hm hr hu (Or.inl rfl) bulkOfOne).2 b hb hn
  refine ⟨m, result, t, hm, hr, hlength, ?_, hbulk, hrejected⟩
  obtain ⟨d, d', hd, hd', x, hx⟩ := hspared.exists_of_isOk hok
  exact ⟨d, d', x, hd, hd', hx⟩

/-- The elements of a dropped property are not read for the base class. -/
theorem dropped_items_not_read : ¬ ∀ (v : Value) (m : Model) (p : Pass) (files : FileTree)
    (t : PassState) (result : PassResult) (e : Xml.Element), Model.ofValue v = .ok m →
    p.run.run { model := m, files := files } = .ok result t →
    (∃ r ∈ result.records, r.deleted = true) → (unmarshalElement m none e).isOk = true →
      (unmarshalElement t.model none e).isOk = true := by
  intro claim
  obtain ⟨m, result, t, hm, hr, hdropped, hok, hbad⟩ :=
    exists_run_of_ran? ⟨{}, none, {}⟩ bulkLast (fun m result t =>
      (∃ r ∈ result.records, r.deleted = true) ∧ (unmarshalElement m none bulkOfOne).isOk = true ∧
        (unmarshalElement t.model none bulkOfOne).isOk = false) (by decide +kernel)
  have := claim bulkLast m _ [] t result bulkOfOne hm hr hdropped hok
  rw [hbad] at this
  cases this

end Pass
end Enfold
