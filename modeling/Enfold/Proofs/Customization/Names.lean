import Enfold.Proofs.Customization.Grammar
import Enfold.Proofs.Naming.Identifier

/-! # Names that are given

A class or a field can be given a name. A control file has to give an identifier. An annotation may
also give one with a line feed behind it, which the check of names overlooks, so the name of a
wrapper or of its items is fit for code unless an annotation gave it such a name.
-/

namespace Enfold

open Directive (Part)

variable {s : String}

def IsIdentifierLine (s : String) : Prop :=
  ∃ name : String, Text.isIdentifier name.toList = true ∧ s = name ++ "\n"

theorem IsIdentifierLine.not_isIdentifier (h : IsIdentifierLine s) :
    Text.isIdentifier s.toList = false := by
  obtain ⟨name, hname, rfl⟩ := h
  rw [Bool.eq_false_iff]
  intro hid
  have hfeed : '\n' ∈ (name ++ "\n").toList := by simp
  exact absurd (Text.isIdentifierChar_of_isIdentifier hid _ hfeed) (by decide)

/-- The check of names lets an identifier pass, and one with a line feed. -/
theorem isGivenName_iff_or_line :
    isGivenName s = true ↔ Text.isIdentifier s.toList = true ∨ IsIdentifierLine s := by
  unfold isGivenName
  dsimp only
  by_cases hlast : s.toList.getLast? = some '\n'
  · obtain ⟨name, hname⟩ := List.getLast?_eq_some_iff.mp hlast
    have hs : s = String.ofList name ++ "\n" := by
      apply String.toList_injective
      simpa using hname
    rw [if_pos hlast, hname, List.dropLast_concat]
    constructor
    · intro h
      exact Or.inr ⟨String.ofList name, by rwa [String.toList_ofList], hs⟩
    · rintro (h | ⟨other, hother, he⟩)
      · have hfeed : '\n' ∈ name ++ ['\n'] := by simp
        exact absurd (Text.isIdentifierChar_of_isIdentifier h _ hfeed) (by decide)
      · have : name ++ ['\n'] = other.toList ++ ['\n'] := by rw [← hname, he]; simp
        rwa [List.append_cancel_right this]
  · rw [if_neg hlast]
    refine ⟨Or.inl, fun h => h.resolve_right ?_⟩
    rintro ⟨name, -, rfl⟩
    exact hlast (by simp)

/-! ### Where names are given -/

def Directive.Part.names : List Part := [.className, .fieldName]

theorem ControlFile.Gives.isIdentifier {part : Part} (hpart : part ∈ Part.names) {name : String}
    {x : Setting} (hb : ∀ c ∈ (part.key ++ "=" ++ name).toList, Text.isBlank c = false)
    (h : Gives (part.key ++ "=" ++ name) x) : Text.isIdentifier name.toList = true := by
  have hsetting : setting "" (part.key ++ "=" ++ name) = .ok x := (setting_eq_ok hb).mpr h
  have hgiven : name ≠ "" → isGivenName name = true := fun hne => by
    simp only [Part.names, List.mem_cons, List.not_mem_nil, or_false] at hpart
    rcases hpart with rfl | rfl
    · exact check_className.mp
        ((setting_of_value "" "class" rfl (by decide) hne).mp hsetting).1
    · exact check_fieldName.mp
        ((setting_of_value "" "field" rfl (by decide) hne).mp hsetting).1
  refine (isGivenName_iff (isBlank_of_mem_value hb)).mp (hgiven ?_)
  rintro rfl
  simp only [Part.names, List.mem_cons, List.not_mem_nil, or_false] at hpart
  rcases hpart with rfl | rfl <;> cases hsetting

theorem ControlFile.isIdentifier_of_parse {ε : Type} {compile : Compiler ε} {text source : String}
    {f : ControlFile} (h : parseWith compile text source = .ok f) {l : Nat × List Char}
    (hl : l ∈ entryLines (numbered text))
    {path rest : List Char} (hparts : splitEntry? l.2 = some (path, rest)) {part : Part}
    (hpart : part ∈ Part.names) {name : String}
    (hname : part.key ++ "=" ++ name ∈ Text.words (String.ofList rest)) :
    Text.isIdentifier name.toList = true := by
  obtain ⟨e, -, -, rest', tokens, xs, hreads, -, hspaced, -, hgives, -⟩ :=
    exists_left_of_forall₂ (parseWith_eq_ok.mp h).2.flip hl
  have heq := hparts.symm.trans (splitEntry?_eq_some.mpr hreads)
  cases heq
  rw [Text.words, String.toList_ofList, Text.splitBlanks_eq_iff.mpr hspaced] at hname
  obtain ⟨t, ht, htoken⟩ := List.mem_map.mp hname
  obtain ⟨x, -, hx⟩ := exists_left_of_forall₂ hgives.flip ht
  rw [htoken] at hx
  refine hx.isIdentifier hpart fun c hc => ?_
  rw [← htoken, String.toList_ofList] at hc
  exact (hspaced.isWord t ht).2 c hc

theorem Settings.Sound.isGivenName {s : Settings} (hs : s.Sound) {part : Part}
    (hpart : part ∈ Part.names) {name : String} (h : s.given? part = some (.text name)) :
    isGivenName name = true := by
  simp only [Part.names, List.mem_cons, List.not_mem_nil, or_false] at hpart
  rcases hpart with rfl | rfl
  · exact hs.className name (by simpa [given?] using h)
  · exact hs.fieldName name (by simpa [given?] using h)

theorem Annotated.isGivenName_of_settings {place : String} {members : List (String × Value)}
    {s : Settings} (h : settings place (.object members) = .ok s) {part : Part}
    (hpart : part ∈ Part.names) {v : Value} (hv : (part.key, v) ∈ members) :
    ∃ name, v = .text name ∧ isGivenName name = true := by
  obtain ⟨xs, hxs, -⟩ := exceptMap_eq_ok.mp (mapError_eq_ok.mp h)
  obtain ⟨x, -, hx⟩ := exists_left_of_forall₂ (mapM_eq_ok.mp hxs).flip hv
  obtain ⟨y, hy⟩ := checked_setting hx
  obtain ⟨hcheck, rfl⟩ := ControlFile.checked_eq_ok.mp hy
  obtain ⟨hkey, rfl⟩ := Prod.mk.inj (gives_setting hx)
  have hgives := Part.key_injective hkey
  simp only [Part.names, List.mem_cons, List.not_mem_nil, or_false] at hpart
  cases x with
  | className name => exact ⟨name, rfl, ControlFile.check_className.mp hcheck⟩
  | fieldName name => exact ⟨name, rfl, ControlFile.check_fieldName.mp hcheck⟩
  | wrap | nested | plural | collection | instantiate =>
    rcases hpart with rfl | rfl <;> cases hgives

theorem Annotated.settings_of_name (place : String) {part : Part} (hpart : part ∈ Part.names)
    (v : Value) : (∃ s, settings place (.object [(part.key, v)]) = .ok s) ↔
      ∃ name, v = .text name ∧ isGivenName name = true := by
  constructor
  · rintro ⟨s, hs⟩
    exact isGivenName_of_settings hs hpart (List.mem_singleton_self _)
  · rintro ⟨name, rfl, hname⟩
    simp only [Part.names, List.mem_cons, List.not_mem_nil, or_false] at hpart
    rcases hpart with rfl | rfl
    · have hcheck := checked_of_check (ControlFile.check_className.mpr hname)
      have hread : [(Part.className.key, Value.text name)].mapM setting =
          .ok [.className name] :=
        mapM_eq_ok.mpr (.cons (mapError_eq_ok.mpr hcheck) .nil)
      exact ⟨_, by rw [settings, hread]; rfl⟩
    · have hcheck := checked_of_check (ControlFile.check_fieldName.mpr hname)
      have hread : [(Part.fieldName.key, Value.text name)].mapM setting =
          .ok [.fieldName name] :=
        mapM_eq_ok.mpr (.cons (mapError_eq_ok.mpr hcheck) .nil)
      exact ⟨_, by rw [settings, hread]; rfl⟩

/-! ### What becomes of a name -/

namespace Naming

variable {name : String}

theorem isIdentifier_apply (h : Text.isIdentifier name.toList = true) :
    Text.isIdentifier (defaultEscapes.apply name).toList = true := by
  rcases apply_defaultEscapes name with e | e
  · rwa [e]
  · rw [e, String.toList_append]
    cases hname : name.toList with
    | nil => simp [hname, Text.isIdentifier] at h
    | cons c r =>
      rw [hname, Text.isIdentifier, Bool.and_eq_true] at h
      simp only [List.cons_append, Text.isIdentifier, List.all_append, h.1, h.2, Bool.true_and]
      decide

theorem apply_of_not_isIdentifier (h : Text.isIdentifier name.toList = false) :
    defaultEscapes.apply name = name := by
  have hreserved : ∀ w ∈ reserved, Text.isIdentifier w.toList = true := by decide +kernel
  have hkeys : Assoc.keys defaultEscapes = reserved := by
    simp [Assoc.keys, defaultEscapes, reserved, Function.comp_def]
  rw [Escapes.apply, Assoc.get?_eq_none]
  · rfl
  · rw [hkeys]
    intro hmem
    rw [hreserved name hmem] at h
    cases h

end Naming

namespace Customization

variable {z : Customization} {m : Model} {p : PropertyId} {d : Directive} {part : Part}
  {given taken : String}

/-- An identifier, escaped if it is reserved, or one with a line feed from an annotation. -/
inductive NameTaken (z : Customization) (m : Model) (p : PropertyId) (part : Part)
    (given taken : String) : Prop
  | identifier : Text.isIdentifier given.toList = true → Text.isIdentifier taken.toList = true →
      taken ∉ Naming.reserved → NameTaken z m p part given taken
  | line : IsIdentifierLine given → taken = given → z.given? m p part .control = none →
      z.given? m p part .onProperty = some (.text given) ∨
        z.given? m p part .onClass = some (.text given) → NameTaken z m p part given taken

theorem given?_merged {ls : List (Layer × Settings)} (h : z.layers m p = .ok ls) (part : Part) :
    (merged ls).given? part = ((z.given? m p part .control).or
      ((z.given? m p part .onProperty).or (z.given? m p part .onClass))) := by
  obtain ⟨ofClass, ofProperty, hclass, hproperty, rfl⟩ := layers_eq_ok.mp h
  have hp : ofProperty.given? part = z.given? m p part .onProperty :=
    Annotated.given?_settings hproperty part
  simp only [merged, List.foldr_cons, List.foldr_nil, Settings.given?_orElse,
    Settings.given?_empty, given?_controlSettings, hp, given?_ownerSettings (z := z) hclass,
    Option.or_none]

theorem isIdentifier_of_control
    (hz : ∀ f, z.control = some f → f.IsRead)
    (hpart : part ∈ Part.names) (h : z.given? m p part .control = some (.text given)) :
    Text.isIdentifier given.toList = true := by
  obtain ⟨f, hf, hgiven⟩ := Option.bind_eq_some_iff.mp h
  obtain ⟨ε, compile, text, source, hparse⟩ := hz f hf
  obtain ⟨e, he, hsettings⟩ := List.exists_of_findSome?_eq_some hgiven
  have hmem := (List.mem_filter.mp (List.mem_reverse.mp he)).1
  obtain ⟨l, -, -, rest, tokens, xs, -, -, -, -, hgives, hxs⟩ :=
    exists_left_of_forall₂ (ControlFile.parseWith_eq_ok.mp hparse).2 hmem
  have hsupported : ControlFile.Supported e.settings := by
    rw [hxs]
    refine ControlFile.supported_ofList fun x hx => ?_
    obtain ⟨t, -, ht⟩ := exists_left_of_forall₂ hgives hx
    exact ⟨_, ht⟩
  simp only [Part.names, List.mem_cons, List.not_mem_nil, or_false] at hpart
  rcases hpart with rfl | rfl
  · exact hsupported.className given (by simpa [Settings.given?] using hsettings)
  · exact hsupported.fieldName given (by simpa [Settings.given?] using hsettings)

theorem nameTaken
    (hz : ∀ f, z.control = some f → f.IsRead)
    {ls : List (Layer × Settings)} (hl : z.layers m p = .ok ls) (hpart : part ∈ Part.names)
    (h : (merged ls).given? part = some (.text given)) :
    NameTaken z m p part given (Naming.defaultEscapes.apply given) := by
  have identifier (hid : Text.isIdentifier given.toList = true) :
      NameTaken z m p part given (Naming.defaultEscapes.apply given) :=
    .identifier hid (Naming.isIdentifier_apply hid) (Naming.apply_defaultEscapes_notMem given)
  have hsound : ∀ l ∈ ls, l.2.Sound := sound_layers (fun f hf => (hz f hf).sound) hl
  have hgiven := (sound_merged hsound).isGivenName hpart h
  rw [given?_merged hl] at h
  cases hc : z.given? m p part .control with
  | some v =>
    rw [hc, Option.some_or] at h
    cases h
    exact identifier (isIdentifier_of_control hz hpart hc)
  | none =>
    rw [hc, Option.none_or] at h
    rcases isGivenName_iff_or_line.mp hgiven with hid | hline
    · exact identifier hid
    · refine .line hline (Naming.apply_of_not_isIdentifier hline.not_isIdentifier) hc ?_
      cases hp : z.given? m p part .onProperty with
      | some v =>
        rw [hp, Option.some_or] at h
        exact Or.inl h
      | none =>
        rw [hp, Option.none_or] at h
        exact Or.inr h

theorem names_of_resolve (h : z.resolve m p = .ok d) : ∃ ls, z.layers m p = .ok ls ∧
    d.className = (merged ls).className ∧ d.fieldName = (merged ls).fieldName := by
  obtain ⟨ls, hl, h⟩ := exceptBind_eq_ok.mp h
  have h := mapError_eq_ok.mp h
  unfold directive at h
  obtain ⟨collection, -, h⟩ := exceptBind_eq_ok.mp h
  obtain ⟨instantiation, -, h⟩ := exceptBind_eq_ok.mp h
  cases h
  exact ⟨ls, hl, rfl, rfl⟩

/-- Given names are identifiers, but for a line feed in an annotation. What is taken for them is not
reserved. -/
theorem givenNames_identifiers (place : String) :
    (∀ (ε : Type) (compile : Compiler ε) text source f,
      ControlFile.parseWith compile text source = .ok f →
      ∀ l ∈ ControlFile.entryLines (ControlFile.numbered text), ∀ path rest,
        ControlFile.splitEntry? l.2 = some (path, rest) → ∀ part ∈ Part.names, ∀ name,
          part.key ++ "=" ++ name ∈ Text.words (String.ofList rest) →
            Text.isIdentifier name.toList = true) ∧
    (∀ members s, Annotated.settings place (.object members) = .ok s →
      ∀ part ∈ Part.names, ∀ v, (part.key, v) ∈ members → ∃ name, v = .text name ∧
        (Text.isIdentifier name.toList = true ∨ IsIdentifierLine name)) ∧
    (∀ part ∈ Part.names, ∀ v,
      (∃ s, Annotated.settings place (.object [(part.key, v)]) = .ok s) ↔ ∃ name, v = .text name ∧
        (Text.isIdentifier name.toList = true ∨ IsIdentifierLine name)) ∧
    ∀ (z : Customization) m p d,
      (∀ f, z.control = some f → f.IsRead) →
      z.resolve m p = .ok d → ∀ n : Naming, n.escapes = Naming.defaultEscapes →
        ∀ element plural,
          (∀ name, d.className = some name → ∃ taken,
            n.wrapperClassName element plural d.className = .ok taken ∧
              NameTaken z m p .className name taken) ∧
          ∀ name, d.fieldName = some name →
            NameTaken z m p .fieldName name (n.itemFieldName element d.fieldName) := by
  simp only [← isGivenName_iff_or_line]
  refine ⟨fun ε compile text source f h l hl path rest hparts part hpart name hname =>
      ControlFile.isIdentifier_of_parse h hl hparts hpart hname,
    fun members s h part hpart v hv => Annotated.isGivenName_of_settings h hpart hv,
    fun part hpart v => Annotated.settings_of_name place hpart v,
    fun z m p d hz h n hn element plural => ?_⟩
  obtain ⟨ls, hl, hclass, hfield⟩ := names_of_resolve h
  have taken (part : Part) (hpart : part ∈ Part.names) (name : String)
      (hname : (merged ls).given? part = some (.text name)) :
      NameTaken z m p part name (n.escapes.apply name) ∧ name ≠ "" := by
    have htaken := nameTaken hz hl hpart hname
    refine ⟨hn ▸ htaken, ?_⟩
    rintro rfl
    cases htaken with
    | identifier hid _ _ => cases hid
    | line hline _ _ _ =>
      obtain ⟨name, -, he⟩ := hline
      simpa using congrArg String.toList he
  constructor
  · intro name hname
    obtain ⟨htaken, hne⟩ := taken .className (by simp [Part.names]) name
      (by simp [Settings.given?, ← hclass, hname])
    refine ⟨_, ?_, htaken⟩
    rw [hname, Naming.wrapperClassName, Option.filter_some_pos (by simpa using hne)]
  · intro name hname
    obtain ⟨htaken, hne⟩ := taken .fieldName (by simp [Part.names]) name
      (by simp [Settings.given?, ← hfield, hname])
    rwa [hname, Naming.itemFieldName, Option.filter_some_pos (by simpa using hne)]

/-- A class of a reserved name, and a field with a line feed behind it. -/
def namedItems : Value :=
  .object [("package", .text "shop"), ("classes", .list [
    .object [("name", .text "Order"), ("properties", .list [
      .object [("name", .text "item"), ("repeated", .bool true),
        ("customization", .object [("field", .text "parts\n"), ("class", .text "Lines")])]])]])]

theorem givenNames_of_namedItems : ∃ f m d s,
    ControlFile.parse "Order.item = class=None" "control" = .ok f ∧
    Model.ofValue namedItems = .ok m ∧ resolve ⟨{}, some f⟩ m ⟨0⟩ = .ok d ∧
    Annotated.settings "shop.Order.item"
      (.object [("field", .text "parts\n"), ("class", .text "Lines")]) = .ok s ∧
    d.className = some "None" ∧ d.fieldName = some "parts\n" ∧
    Text.isIdentifier "None".toList = true ∧
    (∃ name, Value.text "parts\n" = .text name ∧
      (Text.isIdentifier name.toList = true ∨ IsIdentifierLine name)) ∧
    (∃ taken, ({} : Naming).wrapperClassName "item" false d.className = .ok taken ∧
      NameTaken ⟨{}, some f⟩ m ⟨0⟩ .className "None" taken) ∧
    NameTaken ⟨{}, some f⟩ m ⟨0⟩ .fieldName "parts\n"
      (({} : Naming).itemFieldName "item" d.fieldName) ∧
    Text.isIdentifier (({} : Naming).itemFieldName "item" d.fieldName).toList = false := by
  have h : ((resolved? {} "Order.item = class=None" namedItems).any fun (_, _, d) =>
      d.className = some "None" ∧ d.fieldName = some "parts\n" ∧
        Text.isIdentifier (({} : Naming).itemFieldName "item" d.fieldName).toList = false) =
      true := by decide +kernel
  have hread : (Annotated.settings "shop.Order.item" (.object [("field", .text "parts\n"),
      ("class", .text "Lines")])).toOption.isSome = true := by decide +kernel
  obtain ⟨⟨f, m, d⟩, hx, hd⟩ := (Option.any_eq_true _ _).mp h
  obtain ⟨hclass, hfield, hfeed⟩ := of_decide_eq_true hd
  obtain ⟨hf, hm, hr⟩ := resolved?_eq_some hx
  obtain ⟨s, hs⟩ := Option.isSome_iff_exists.mp hread
  have hs := toOption_eq_some.mp hs
  obtain ⟨hlines, hannotated, -, hdirectives⟩ := givenNames_identifiers "shop.Order.item"
  have hnone := hlines _ _ _ _ f (mapError_eq_ok.mp hf) (1, "Order.item = class=None".toList)
    (by decide +kernel) "Order.item".toList " class=None".toList (by decide +kernel) .className
    (by decide) "None" (by decide +kernel)
  have hparts := hannotated _ s hs .fieldName (by decide) (.text "parts\n") (by simp [Part.key])
  obtain ⟨htaken, hkept⟩ := hdirectives ⟨{}, some f⟩ m ⟨0⟩ d
    (fun _ e => Option.some.inj e ▸ ControlFile.isRead_of_parse hf) hr {} rfl "item" false
  exact ⟨f, m, d, s, hf, hm, hr, hs, hclass, hfield, hnone, hparts, htaken _ hclass,
    hkept _ hfield, hfeed⟩

theorem line_feed_accepted : ¬ ∀ place members s,
    Annotated.settings place (.object members) = .ok s →
      ∀ name, s.className = some name → Text.isIdentifier name.toList = true := by
  intro claim
  have hread : ((Annotated.settings "pkg.C.p" (.object [("class", .text "Items\n")])).toOption.any
      fun s => s.className = some "Items\n") = true := by decide +kernel
  obtain ⟨s, hs, hname⟩ := (Option.any_eq_true _ _).mp hread
  have hid := claim _ _ s (toOption_eq_some.mp hs) "Items\n" (of_decide_eq_true hname)
  exact absurd hid (by decide +kernel)

end Customization

end Enfold
