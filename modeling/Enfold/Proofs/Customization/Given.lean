import Enfold.Customization.Directive
import Enfold.Proofs.Except
import Enfold.Proofs.Naming.Sanitize

/-! # Settings that are given

A control file and an annotation can only give names, collections and modes that passed their
check, so the directive of a property never asks for any other.
-/

namespace Enfold

/-- What settings ask for has passed its check. -/
structure Settings.Sound (s : Settings) : Prop where
  className : ∀ x, s.className = some x → isGivenName x = true
  fieldName : ∀ x, s.fieldName = some x → isGivenName x = true
  collection : ∀ x, s.collection = some x → ∃ c, Collection.resolve (.text x) = .ok c
  instantiate : ∀ x, s.instantiate = some x → ∃ i, Instantiation.resolve (.text x) = .ok i

theorem checkName_eq_ok {key name : String} {u : Unit} (h : Setting.checkName key name = .ok u) :
    isGivenName name = true := by
  unfold Setting.checkName at h
  split at h
  · assumption
  · cases h

theorem Setting.collection_of_check {name : String} {u : Unit}
    (h : (collection name).check = .ok u) : ∃ c, Collection.resolve (.text name) = .ok c := by
  unfold check at h
  obtain ⟨c, hc, -⟩ := exceptMap_eq_ok.mp h
  exact ⟨c, mapError_eq_ok.mp hc⟩

theorem Setting.instantiate_of_check {mode : String} {u : Unit}
    (h : (instantiate mode).check = .ok u) : ∃ i, Instantiation.resolve (.text mode) = .ok i := by
  unfold check at h
  obtain ⟨i, hi, -⟩ := exceptMap_eq_ok.mp h
  exact ⟨i, mapError_eq_ok.mp hi⟩

namespace Settings

theorem sound_empty : ({} : Settings).Sound := ⟨by simp, by simp, by simp, by simp⟩

theorem Sound.set {s : Settings} (hs : s.Sound) {x y : Setting} (h : x.checked = .ok y) :
    (s.set y).Sound := by
  obtain ⟨u, hu, rfl⟩ := exceptMap_eq_ok.mp h
  cases x with
  | className name => exact { hs with className := by rintro _ ⟨⟩; exact checkName_eq_ok hu }
  | fieldName name => exact { hs with fieldName := by rintro _ ⟨⟩; exact checkName_eq_ok hu }
  | collection name =>
    exact { hs with collection := by rintro _ ⟨⟩; exact Setting.collection_of_check hu }
  | instantiate mode =>
    exact { hs with instantiate := by rintro _ ⟨⟩; exact Setting.instantiate_of_check hu }
  | wrap | nested | plural => exact { hs with }

theorem Sound.orElse {a b : Settings} (ha : a.Sound) (hb : b.Sound) : (a.orElse b).Sound := by
  -- A setting comes from one of the two.
  have either {β : Type} {P : β → Prop} {u l : Option β} (hu : ∀ x, u = some x → P x)
      (hl : ∀ x, l = some x → P x) : ∀ x, (u <|> l) = some x → P x := by
    intro x h
    cases u with
    | some y => exact hu x h
    | none => exact hl x h
  exact ⟨either ha.className hb.className, either ha.fieldName hb.fieldName,
    either ha.collection hb.collection, either ha.instantiate hb.instantiate⟩

theorem sound_ofList {xs : List Setting} (h : ∀ x ∈ xs, ∃ y : Setting, y.checked = .ok x) :
    (ofList xs).Sound := by
  have fold {s : Settings} (hs : s.Sound) : (xs.foldl Settings.set s).Sound := by
    induction xs generalizing s with
    | nil => exact hs
    | cons x xs ih =>
      obtain ⟨y, hy⟩ := h x List.mem_cons_self
      exact ih (fun z hz => h z (List.mem_cons_of_mem _ hz)) (hs.set hy)
  exact fold sound_empty

end Settings

theorem checked_of_check {x : Setting} (h : x.check = .ok ()) : x.checked = .ok x := by
  rw [Setting.checked, h]
  rfl

/-! ### Annotations -/

theorem Annotated.checked_setting {member : String × Value} {x : Setting}
    (h : Annotated.setting member = .ok x) : ∃ y : Setting, y.checked = .ok x := by
  unfold Annotated.setting at h
  split at h
  · cases h
  · next make hk =>
    split at h
    · next b _ =>
      cases h
      have := Assoc.mem_of_get? hk
      refine ⟨make b, checked_of_check ?_⟩
      simp only [Annotated.keys, List.mem_cons, Prod.mk.injEq, Annotated.Key.flag.injEq,
        reduceCtorEq, and_false, or_false, false_or, List.not_mem_nil] at this
      rcases this with ⟨-, rfl⟩ | ⟨-, rfl⟩ | ⟨-, rfl⟩ <;> rfl
    · cases h
  · split at h
    · exact ⟨_, mapError_eq_ok.mp h⟩
    · cases h

theorem Annotated.sound_settings {place : String} {given : Value} {s : Settings}
    (h : Annotated.settings place given = .ok s) : s.Sound := by
  unfold Annotated.settings at h
  split at h
  · cases h
    exact Settings.sound_empty
  · obtain ⟨xs, hxs, rfl⟩ := exceptMap_eq_ok.mp (mapError_eq_ok.mp h)
    refine Settings.sound_ofList fun x hx => ?_
    obtain ⟨member, -, hm⟩ := mapM_eq_ok_mem hxs hx
    exact Annotated.checked_setting hm
  · cases h

/-! ### Control files -/

namespace ControlFile

theorem checked_setting {path token : String} {x : Setting} (h : setting path token = .ok x) :
    ∃ y : Setting, y.checked = .ok x := by
  unfold setting at h
  split at h
  · split at h
    · next hk =>
      cases h
      have := Assoc.mem_of_get? hk
      refine ⟨x, checked_of_check ?_⟩
      simp only [flagTokens, List.mem_cons, Prod.mk.injEq, List.not_mem_nil, or_false] at this
      rcases this with ⟨-, rfl⟩ | ⟨-, rfl⟩ | ⟨-, rfl⟩ | ⟨-, rfl⟩ | ⟨-, rfl⟩ | ⟨-, rfl⟩ |
        ⟨-, rfl⟩ | ⟨-, rfl⟩ | ⟨-, rfl⟩ <;> rfl
    · cases h
  · split at h
    · cases h
    · split at h
      · cases h
      · exact ⟨_, mapError_eq_ok.mp h⟩

section Compiler

variable {ε : Type} {compile : Compiler ε}

theorem sound_parseLine {number : Nat} {line : List Char} {e : ControlEntry}
    (h : parseLine compile number line = .ok e) : e.settings.Sound := by
  unfold parseLine at h
  split at h
  · cases h
  · obtain ⟨pattern, -, h⟩ := exceptBind_eq_ok.mp h
    dsimp only at h
    split at h
    · cases h
    · obtain ⟨xs, hxs, h⟩ := exceptBind_eq_ok.mp h
      cases h
      apply Settings.sound_ofList
      intro x hx
      obtain ⟨token, -, ht⟩ := mapM_eq_ok_mem (mapError_eq_ok.mp hxs) hx
      exact checked_setting ht

theorem sound_parseLines {source : String} {lines : List (Nat × List Char)}
    {es : List ControlEntry} (h : parseLines compile source lines = .ok es) :
    ∀ e ∈ es, e.settings.Sound := by
  induction lines generalizing es with
  | nil =>
    cases h
    simp
  | cons line lines ih =>
    obtain ⟨number, raw⟩ := line
    unfold parseLines at h
    dsimp only at h
    split at h
    · exact ih h
    · obtain ⟨entry, he, h⟩ := exceptBind_eq_ok.mp h
      obtain ⟨rest, hr, h⟩ := exceptBind_eq_ok.mp h
      cases h
      intro e hm
      rcases List.mem_cons.mp hm with rfl | hm
      · exact sound_parseLine (mapError_eq_ok.mp he)
      · exact ih hr e hm

end Compiler

/-- The control file was read from a text, with some compiler for its patterns. -/
def IsRead (f : ControlFile) : Prop :=
  ∃ (ε : Type) (compile : Compiler ε) (text source : String), parseWith compile text source = .ok f

theorem isRead_of_parse {text source : String} {f : ControlFile} (h : parse text source = .ok f) :
    f.IsRead :=
  ⟨Empty, Pattern.compile, text, source, mapError_eq_ok.mp h⟩

theorem IsRead.sound {f : ControlFile} (h : f.IsRead) : ∀ e ∈ f.entries, e.settings.Sound := by
  obtain ⟨ε, compile, text, source, h⟩ := h
  obtain ⟨es, he, h⟩ := exceptBind_eq_ok.mp h
  cases h
  exact sound_parseLines he

theorem sound_settingsFor {f : ControlFile} (hf : ∀ e ∈ f.entries, e.settings.Sound) (m : Model)
    (p : PropertyId) : (f.settingsFor m p).Sound := by
  have fold (es : List ControlEntry) (hs : ∀ e ∈ es, e.settings.Sound) {acc : Settings}
      (ha : acc.Sound) : (es.foldl (fun acc e => e.settings.orElse acc) acc).Sound := by
    induction es generalizing acc with
    | nil => exact ha
    | cons e es ih =>
      exact ih (fun x hx => hs x (List.mem_cons_of_mem _ hx)) ((hs e List.mem_cons_self).orElse ha)
  exact fold _ (fun e he => hf e (List.mem_filter.mp he).1) Settings.sound_empty

end ControlFile

/-! ### Directives -/

namespace Customization

variable {z : Customization} {m : Model} {p : PropertyId} {d : Directive}

def Sound (z : Customization) : Prop :=
  ∀ f, z.control = some f → ∀ e ∈ f.entries, e.settings.Sound

def controlSettings (z : Customization) (m : Model) (p : PropertyId) : Settings :=
  (z.control.map fun f => f.settingsFor m p).getD {}

def ownerSettings (m : Model) (p : PropertyId) : Except ConfigError Settings :=
  ((m.prop p).owner.map (classSettings m)).getD (.ok {})

theorem layers_eq_ok {ls : List (Layer × Settings)} : z.layers m p = .ok ls ↔
    ∃ ofClass ofProperty, ownerSettings m p = .ok ofClass ∧
      propertySettings m p = .ok ofProperty ∧ ls = [(.control, z.controlSettings m p),
        (.onProperty, ofProperty), (.onClass, ofClass)] := by
  have hlayers : z.layers m p = (ownerSettings m p >>= fun ofClass => do
      let ofProperty ← propertySettings m p
      return [(.control, z.controlSettings m p), (.onProperty, ofProperty),
        (.onClass, ofClass)]) := by
    unfold layers ownerSettings controlSettings
    cases z.control <;> cases (m.prop p).owner <;> rfl
  simp only [hlayers, exceptBind_eq_ok, exceptPure_eq_ok, exists_and_left]

theorem sound_layers (hz : z.Sound) {ls : List (Layer × Settings)} (h : z.layers m p = .ok ls) :
    ∀ l ∈ ls, l.2.Sound := by
  obtain ⟨ofClass, ofProperty, hc, hp, rfl⟩ := layers_eq_ok.mp h
  have hcontrol : (z.controlSettings m p).Sound := by
    unfold controlSettings
    cases hf : z.control with
    | none => exact Settings.sound_empty
    | some f => exact ControlFile.sound_settingsFor (hz f hf) m p
  have hclass : ofClass.Sound := by
    unfold ownerSettings at hc
    cases ho : (m.prop p).owner with
    | none =>
      rw [ho] at hc
      exact Except.ok.inj hc ▸ Settings.sound_empty
    | some c =>
      rw [ho] at hc
      exact Annotated.sound_settings hc
  intro l hl
  simp only [List.mem_cons, List.not_mem_nil, or_false] at hl
  rcases hl with rfl | rfl | rfl
  · exact hcontrol
  · exact Annotated.sound_settings hp
  · exact hclass

theorem sound_merged {ls : List (Layer × Settings)} (h : ∀ l ∈ ls, l.2.Sound) :
    (ls.foldr (fun (l : Layer × Settings) acc => l.2.orElse acc) {}).Sound := by
  induction ls with
  | nil => exact Settings.sound_empty
  | cons l ls ih =>
    exact (h l List.mem_cons_self).orElse (ih fun x hx => h x (List.mem_cons_of_mem _ hx))

theorem sound_resolve (hz : z.Sound) (h : z.resolve m p = .ok d) :
    (∀ x, d.className = some x → isGivenName x = true) ∧
      ∀ x, d.fieldName = some x → isGivenName x = true := by
  unfold resolve at h
  obtain ⟨ls, hl, h⟩ := exceptBind_eq_ok.mp h
  have hm := sound_merged (sound_layers hz hl)
  have h := mapError_eq_ok.mp h
  unfold directive at h
  obtain ⟨collection, -, h⟩ := exceptBind_eq_ok.mp h
  obtain ⟨instantiation, -, h⟩ := exceptBind_eq_ok.mp h
  cases h
  exact ⟨hm.className, hm.fieldName⟩

end Customization

/-- A given name is an identifier, with a line feed perhaps. -/
theorem pointless_of_isGivenName {x : String} (h : isGivenName x = true) : Pointless x := by
  have identifier {s : List Char} (hs : Text.isIdentifier s = true) : '.' ∉ s := fun hm =>
    absurd (Text.isIdentifierChar_of_isIdentifier hs _ hm) (by decide)
  unfold isGivenName at h
  dsimp only at h
  split at h
  · next hl =>
    intro hm
    have hne := List.ne_nil_of_mem hm
    rw [← List.dropLast_concat_getLast hne, List.mem_append, List.mem_singleton] at hm
    rcases hm with hm | hm
    · exact identifier h hm
    · rw [List.getLast?_eq_some_getLast hne, ← hm] at hl
      exact absurd hl (by decide)
  · exact identifier h

end Enfold
