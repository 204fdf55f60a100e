import Enfold.Proofs.Customization.Validated
import Enfold.Proofs.Assoc

/-! # Which layer decides

A directive has seven parts. For each of them alone, the highest layer that gives it decides: among
the lines of a control file that match a property the last that sets the part, then the annotations
of the property and of its class, then the options, then the built-in defaults.
-/

namespace Enfold

/-- What the layers can give of a directive. -/
inductive Directive.Part where
  | wrap
  | collection
  | instantiate
  | className
  | fieldName
  | nested
  | plural
  deriving DecidableEq, Repr

namespace Directive.Part

def key : Part → String
  | wrap => "wrap"
  | collection => "collection"
  | instantiate => "instantiate"
  | className => "class"
  | fieldName => "field"
  | nested => "nested"
  | plural => "plural"

/-- What holds where no layer gives a part. Names are not given but derived then. -/
def builtIn : Part → Value
  | wrap => .bool true
  | collection => .text "list"
  | instantiate => .text "eager"
  | className | fieldName => .null
  | nested | plural => .bool false

theorem key_injective : Function.Injective key := by
  intro a b h
  cases a <;> cases b <;> first | rfl | exact absurd h (by decide)

end Directive.Part

open Directive (Part)

/-- The option for a part, if there is one and it is not left open. -/
def Options.given? (o : Options) (part : Part) : Option Value :=
  let option := match part with
    | .collection => o.collection
    | .instantiate => o.instantiate
    | .nested => o.nested
    | .plural => o.plural
    | .wrap | .className | .fieldName => .null
  if option.isNull then none else some option

def Setting.gives : Setting → Part × Value
  | wrap on => (.wrap, .bool on)
  | nested on => (.nested, .bool on)
  | plural on => (.plural, .bool on)
  | collection name => (.collection, .text name)
  | instantiate mode => (.instantiate, .text mode)
  | className name => (.className, .text name)
  | fieldName name => (.fieldName, .text name)

def Settings.given? (s : Settings) : Part → Option Value
  | .wrap => s.wrap.map .bool
  | .collection => s.collection.map .text
  | .instantiate => s.instantiate.map .text
  | .className => s.className.map .text
  | .fieldName => s.fieldName.map .text
  | .nested => s.nested.map .bool
  | .plural => s.plural.map .bool

/-- What the last line says that matches a property and sets a part. -/
def ControlFile.given? (f : ControlFile) (m : Model) (p : PropertyId) (part : Part) :
    Option Value :=
  (f.entries.filter (·.holdsFor m p)).reverse.findSome? (·.settings.given? part)

/-- The member of an annotation for a part, of several the last. -/
def Annotated.given? (v : Value) (part : Part) : Option Value :=
  Assoc.get? part.key (v.members?.getD []).reverse

namespace Customization

def given? (z : Customization) (m : Model) (p : PropertyId) (part : Part) : Layer → Option Value
  | .control => z.control.bind fun f => f.given? m p part
  | .onProperty => Annotated.given? (m.prop p).customization part
  | .onClass => (m.prop p).owner.bind fun c => Annotated.given? (m.decl c).customization part
  | .options => z.options.given? part
  | .default => some part.builtIn

/-- The highest layer that gives a part, and what it gives. -/
def decided (z : Customization) (m : Model) (p : PropertyId) (part : Part) : Layer × Value :=
  ([Layer.control, .onProperty, .onClass, .options].findSome? fun l =>
    (z.given? m p part l).map (l, ·)).getD (.default, part.builtIn)

end Customization

/-- Every part of a directive is the one that the highest layer gives. -/
structure Directive.Decided (d : Directive) (z : Customization) (m : Model) (p : PropertyId) :
    Prop where
  wrap : .bool d.wrap = (z.decided m p .wrap).2
  source : d.source = (z.decided m p .wrap).1.name
  collection : Collection.resolve (z.decided m p .collection).2 = .ok d.collection
  instantiation : Instantiation.resolve (z.decided m p .instantiate).2 = .ok d.instantiation
  className : (d.className.map Value.text).getD .null = (z.decided m p .className).2
  fieldName : (d.fieldName.map Value.text).getD .null = (z.decided m p .fieldName).2
  nested : d.nested = (z.decided m p .nested).2
  plural : d.plural = (z.decided m p .plural).2
  interface : d.interface = if z.options.collectionInterface.isNull then .text d.collection.typeName
    else z.options.collectionInterface

/-! ### Settings, part by part -/

namespace Settings

theorem given?_set (s : Settings) (x : Setting) (part : Part) :
    (s.set x).given? part = if x.gives.1 = part then some x.gives.2 else s.given? part := by
  cases x <;> cases part <;> rfl

theorem given?_orElse (upper lower : Settings) (part : Part) :
    (upper.orElse lower).given? part = (upper.given? part).or (lower.given? part) := by
  have either {α : Type} (f : α → Value) (u l : Option α) :
      (u <|> l).map f = (u.map f).or (l.map f) := by
    cases u <;> rfl
  cases part <;> exact either _ _ _

@[simp] theorem given?_empty (part : Part) : ({} : Settings).given? part = none := by
  cases part <;> rfl

end Settings

theorem Setting.gives_of_checked {x y : Setting} (h : x.checked = .ok y) : y = x := by
  obtain ⟨_, -, rfl⟩ := exceptMap_eq_ok.mp h
  rfl

namespace Annotated

theorem gives_setting {member : String × Value} {x : Setting} (h : setting member = .ok x) :
    (x.gives.1.key, x.gives.2) = member := by
  obtain ⟨k, v⟩ := member
  unfold setting at h
  split at h
  · cases h
  · next make hk =>
    have hmem := Assoc.mem_of_get? hk
    simp only [keys, List.mem_cons, Prod.mk.injEq, Key.flag.injEq, reduceCtorEq, and_false,
      or_false, false_or, List.not_mem_nil] at hmem
    split at h
    · next b hb =>
      cases h
      obtain rfl : v = .bool b := hb
      rcases hmem with ⟨rfl, rfl⟩ | ⟨rfl, rfl⟩ | ⟨rfl, rfl⟩ <;> rfl
    · cases h
  · next make hk =>
    have hmem := Assoc.mem_of_get? hk
    simp only [keys, List.mem_cons, Prod.mk.injEq, Key.text.injEq, reduceCtorEq, and_false,
      or_false, false_or, List.not_mem_nil] at hmem
    split at h
    · next s hs =>
      obtain rfl := Setting.gives_of_checked (mapError_eq_ok.mp h)
      obtain rfl : v = .text s := hs
      rcases hmem with ⟨rfl, rfl⟩ | ⟨rfl, rfl⟩ | ⟨rfl, rfl⟩ | ⟨rfl, rfl⟩ <;> rfl
    · cases h

theorem given?_settings {place : String} {v : Value} {s : Settings}
    (h : settings place v = .ok s) (part : Part) :
    s.given? part = given? v part := by
  -- The settings are put one by one, on top of those before.
  have fold {members : List (String × Value)} {xs : List Setting}
      (hx : members.mapM setting = .ok xs) (s : Settings) :
      (xs.foldl Settings.set s).given? part =
        (Assoc.get? part.key members.reverse).or (s.given? part) := by
    induction members generalizing xs s with
    | nil =>
      cases hx
      rfl
    | cons member members ih =>
      rw [List.mapM_cons] at hx
      obtain ⟨x, hsetting, hx⟩ := exceptBind_eq_ok.mp hx
      obtain ⟨xs, hxs, hx⟩ := exceptBind_eq_ok.mp hx
      cases hx
      have hkey : x.gives.1 = part ↔ member.1 = part.key := by
        rw [← gives_setting hsetting]
        exact Part.key_injective.eq_iff.symm
      have hvalue : x.gives.2 = member.2 := by rw [← gives_setting hsetting]
      rw [List.foldl_cons, ih hxs, Settings.given?_set, Assoc.get?_reverse_cons, Option.or_assoc]
      simp only [hkey, hvalue]
      split <;> rfl
  unfold settings at h
  split at h
  · cases h
    exact Settings.given?_empty part
  · obtain ⟨xs, hxs, rfl⟩ := exceptMap_eq_ok.mp (mapError_eq_ok.mp h)
    rw [Settings.ofList, fold hxs, Settings.given?_empty, Option.or_none]
    rfl
  · cases h

end Annotated

/-- The last line that matches a property and sets a part gives it. -/
theorem ControlFile.given?_settingsFor (f : ControlFile) (m : Model) (p : PropertyId)
    (part : Part) : (f.settingsFor m p).given? part = f.given? m p part := by
  have fold (es : List ControlEntry) (s : Settings) :
      (es.foldl (fun acc e => e.settings.orElse acc) s).given? part =
        (es.reverse.findSome? (·.settings.given? part)).or (s.given? part) := by
    induction es generalizing s with
    | nil => rfl
    | cons e es ih =>
      rw [List.foldl_cons, ih, Settings.given?_orElse, List.reverse_cons, List.findSome?_append,
        List.findSome?_singleton, Option.or_assoc]
  rw [settingsFor, fold, Settings.given?_empty, Option.or_none]
  rfl

/-! ### Options -/

namespace Options

variable {o : Options} {files : FileTree}

theorem isTruthy_collectionInterface (h : o.rejections files = .ok []) :
    o.collectionInterface.isTruthy = !o.collectionInterface.isNull := by
  obtain ⟨-, hi, -⟩ := resolved_of_rejections h
  cases hv : o.collectionInterface with
  | null => rfl
  | text s =>
    rw [hv] at hi
    obtain ⟨name, hname⟩ := hi rfl
    by_cases hs : s = ""
    · subst hs
      cases hname
    · simp [Value.isTruthy, Value.isNull, hs]
  | bool | int | decimal | list | object =>
    rw [hv] at hi
    obtain ⟨name, hname⟩ := hi rfl
    cases hname

end Options

/-! ### The parts of a directive -/

namespace Customization

variable {z : Customization} {m : Model} {p : PropertyId} {d d' : Directive}

theorem getD_null_injective {a b : Option String}
    (h : (a.map Value.text).getD .null = (b.map Value.text).getD .null) : a = b := by
  cases a <;> cases b <;> cases h <;> rfl

/-- The layers leave no choice. -/
theorem eq_of_decided (h : d.Decided z m p) (h' : d'.Decided z m p) : d = d' := by
  have hwrap := h.wrap.trans h'.wrap.symm
  have hsource := h.source.trans h'.source.symm
  have hcollection := h.collection.symm.trans h'.collection
  have hinstantiation := h.instantiation.symm.trans h'.instantiation
  have hclass := getD_null_injective (h.className.trans h'.className.symm)
  have hfield := getD_null_injective (h.fieldName.trans h'.fieldName.symm)
  have hnested := h.nested.trans h'.nested.symm
  have hplural := h.plural.trans h'.plural.symm
  have hinterface := h.interface
  have hinterface' := h'.interface
  cases d
  cases d'
  simp_all

def merged (ls : List (Layer × Settings)) : Settings :=
  ls.foldr (fun l acc => l.2.orElse acc) {}

theorem given?_controlSettings (z : Customization) (m : Model) (p : PropertyId) (part : Part) :
    (z.controlSettings m p).given? part = z.given? m p part .control := by
  unfold controlSettings given?
  cases z.control with
  | none => exact Settings.given?_empty part
  | some f => exact f.given?_settingsFor m p part

theorem given?_ownerSettings {s : Settings} (h : ownerSettings m p = .ok s) (part : Part) :
    s.given? part = z.given? m p part .onClass := by
  unfold ownerSettings at h
  unfold given?
  cases ho : (m.prop p).owner with
  | none =>
    rw [ho] at h
    cases h
    exact Settings.given?_empty part
  | some c =>
    rw [ho] at h
    exact Annotated.given?_settings h part

section Layers

variable {ls : List (Layer × Settings)} (hl : z.layers m p = .ok ls)
include hl

theorem snd_decided (part : Part) : (z.decided m p part).2 =
    (((merged ls).given? part).or (z.options.given? part)).getD part.builtIn := by
  obtain ⟨ofClass, ofProperty, hclass, hproperty, rfl⟩ := layers_eq_ok.mp hl
  have hp : ofProperty.given? part = z.given? m p part .onProperty :=
    Annotated.given?_settings hproperty part
  have ho : z.options.given? part = z.given? m p part .options := rfl
  simp only [merged, decided, List.foldr_cons, List.foldr_nil, Settings.given?_orElse,
    Settings.given?_empty, given?_controlSettings, hp, given?_ownerSettings (z := z) hclass, ho,
    List.findSome?_cons]
  cases z.given? m p part .control <;> cases z.given? m p part .onProperty <;>
    cases z.given? m p part .onClass <;> cases z.given? m p part .options <;> rfl

theorem fst_decided_wrap : (z.decided m p .wrap).1 =
    ((ls.find? fun l => l.2.wrap.isSome).map Prod.fst).getD .default := by
  obtain ⟨ofClass, ofProperty, hclass, hproperty, rfl⟩ := layers_eq_ok.mp hl
  have hp : ofProperty.given? .wrap = z.given? m p .wrap .onProperty :=
    Annotated.given?_settings hproperty .wrap
  have ho : z.given? m p .wrap .options = none := rfl
  have isSome (s : Settings) : s.wrap.isSome = (s.given? .wrap).isSome := by
    simp [Settings.given?]
  simp only [decided, List.find?_cons, isSome, given?_controlSettings, hp,
    given?_ownerSettings (z := z) hclass, List.findSome?_cons, ho]
  cases z.given? m p .wrap .control <;> cases z.given? m p .wrap .onProperty <;>
    cases z.given? m p .wrap .onClass <;> rfl

theorem snd_decided_of_option {α : Type} (part : Part) (f : α → Value) (given : Option α)
    (option : Value) (hg : (merged ls).given? part = given.map f)
    (ho : z.options.given? part = if option.isNull then none else some option) :
    (z.decided m p part).2 = (given.map f).getD (optionOr option part.builtIn) := by
  rw [snd_decided hl, hg, ho]
  unfold optionOr
  cases given with
  | some a => rfl
  | none => split <;> rfl

theorem snd_decided_of_no_option {α : Type} (part : Part) (f : α → Value) (given : Option α)
    (hg : (merged ls).given? part = given.map f) (ho : z.options.given? part = none) :
    (z.decided m p part).2 = (given.map f).getD part.builtIn := by
  rw [snd_decided hl, hg, ho, Option.or_none]

theorem decided_of_directive {files : FileTree} (ho : z.options.rejections files = .ok [])
    (h : z.directive ls = .ok d) : d.Decided z m p := by
  obtain ⟨collection, hc, h⟩ := exceptBind_eq_ok.mp h
  obtain ⟨instantiation, hi, h⟩ := exceptBind_eq_ok.mp h
  cases h
  constructor
  case wrap =>
    rw [snd_decided_of_no_option hl .wrap .bool (merged ls).wrap rfl rfl]
    change Value.bool ((merged ls).wrap.getD true) = _
    cases (merged ls).wrap <;> rfl
  case source => exact congrArg Layer.name (fst_decided_wrap hl).symm
  case collection =>
    rw [snd_decided_of_option hl .collection .text (merged ls).collection z.options.collection
      rfl rfl]
    exact hc
  case instantiation =>
    rw [snd_decided_of_option hl .instantiate .text (merged ls).instantiate z.options.instantiate
      rfl rfl]
    exact hi
  case className =>
    exact (snd_decided_of_no_option hl .className .text (merged ls).className rfl rfl).symm
  case fieldName =>
    exact (snd_decided_of_no_option hl .fieldName .text (merged ls).fieldName rfl rfl).symm
  case nested =>
    exact (snd_decided_of_option hl .nested .bool (merged ls).nested z.options.nested rfl rfl).symm
  case plural =>
    exact (snd_decided_of_option hl .plural .bool (merged ls).plural z.options.plural rfl rfl).symm
  case interface =>
    dsimp only
    rw [Options.isTruthy_collectionInterface ho]
    cases z.options.collectionInterface.isNull <;> rfl

theorem exists_directive {collection : Collection} {instantiation : Instantiation}
    (hc : Collection.resolve (z.decided m p .collection).2 = .ok collection)
    (hi : Instantiation.resolve (z.decided m p .instantiate).2 = .ok instantiation) :
    ∃ d, z.directive ls = .ok d := by
  rw [snd_decided_of_option hl .collection .text (merged ls).collection z.options.collection
    rfl rfl] at hc
  rw [snd_decided_of_option hl .instantiate .text (merged ls).instantiate z.options.instantiate
    rfl rfl] at hi
  exact ⟨_, exceptBind_eq_ok.mpr ⟨_, hc, exceptBind_eq_ok.mpr ⟨_, hi, rfl⟩⟩⟩

theorem directive_of_decided {files : FileTree} (ho : z.options.rejections files = .ok [])
    (h : d.Decided z m p) : z.directive ls = .ok d := by
  obtain ⟨e, he⟩ := exists_directive hl h.collection h.instantiation
  rw [he, eq_of_decided h (decided_of_directive hl ho he)]

end Layers

/-- Each part of a directive is given by the highest layer that gives it. There is one unless a
control file gives a collection or a mode that does not exist. -/
theorem resolve_eq_ok_iff_decided {files : FileTree} {ofClass ofProperty : Settings}
    (ho : z.options.rejections files = .ok []) (hc : ownerSettings m p = .ok ofClass)
    (hp : propertySettings m p = .ok ofProperty) :
    (∀ d, z.resolve m p = .ok d ↔ d.Decided z m p) ∧ (z.Sound → ∃ d, z.resolve m p = .ok d) := by
  have hl := layers_eq_ok (z := z).mpr ⟨ofClass, ofProperty, hc, hp, rfl⟩
  have hresolve : z.resolve m p = (z.directive [(.control, z.controlSettings m p),
      (.onProperty, ofProperty), (.onClass, ofClass)]).mapError .option := by
    unfold resolve
    rw [hl]
    rfl
  constructor
  · intro d
    rw [hresolve, mapError_eq_ok]
    exact ⟨decided_of_directive hl ho, directive_of_decided hl ho⟩
  · intro hz
    obtain ⟨d, hd⟩ := directive_ok (Options.resolves_of_rejections ho) (sound_layers hz hl)
    exact ⟨d, hresolve.trans (mapError_eq_ok.mpr hd)⟩

/-- A class of orders whose annotation would wrap, with items whose annotation says not to. -/
def unwrappedItems : Value :=
  .object [("package", .text "shop"), ("classes", .list [
    .object [("name", .text "Order"),
      ("customization", .object [("wrap", .bool true), ("plural", .bool true),
        ("class", .text "Lines")]),
      ("properties", .list [
        .object [("name", .text "item"), ("repeated", .bool true),
          ("customization", .object [("wrap", .bool false), ("collection", .text "set")])]])]])]

def itemLines : String := "/.*[.]item/ = nested field=parts\nOrder.item = toplevel collection=deque"

def lazyTuples : Options := { collection := .text "tuple", instantiate := .text "lazy" }

def resolved? (o : Options) (text : String) (v : Value) :
    Option (ControlFile × Model × Directive) := do
  let f ← (ControlFile.parse text "control").toOption
  let m ← (Model.ofValue v).toOption
  let d ← (resolve ⟨o, some f⟩ m ⟨0⟩).toOption
  return (f, m, d)

theorem resolved?_eq_some {o : Options} {text : String} {v : Value} {f : ControlFile}
    (h : resolved? o text v = some (f, m, d)) : ControlFile.parse text "control" = .ok f ∧
      Model.ofValue v = .ok m ∧ resolve ⟨o, some f⟩ m ⟨0⟩ = .ok d := by
  obtain ⟨f', hf, h⟩ := Option.bind_eq_some_iff.mp h
  obtain ⟨m', hm, h⟩ := Option.bind_eq_some_iff.mp h
  obtain ⟨d', hd, h⟩ := Option.bind_eq_some_iff.mp h
  cases h
  exact ⟨toOption_eq_some.mp hf, toOption_eq_some.mp hm, toOption_eq_some.mp hd⟩

theorem decided_of_unwrappedItems : ∃ f m ofClass ofProperty d,
    ControlFile.parse itemLines "control" = .ok f ∧ Model.ofValue unwrappedItems = .ok m ∧
    lazyTuples.rejections [] = .ok [] ∧ ownerSettings m ⟨0⟩ = .ok ofClass ∧
    propertySettings m ⟨0⟩ = .ok ofProperty ∧ resolve ⟨lazyTuples, some f⟩ m ⟨0⟩ = .ok d ∧
      (d.wrap = false ∧ d.source = "annotation" ∧ d.collection = ⟨.ordered, "deque"⟩ ∧
        d.instantiation = .lazy ∧ d.className = some "Lines" ∧ d.fieldName = some "parts" ∧
        d.nested.asBool? = some false ∧ d.plural.asBool? = some true) ∧
      d.Decided ⟨lazyTuples, some f⟩ m ⟨0⟩ := by
  have hr : ((resolved? lazyTuples itemLines unwrappedItems).any fun (_, _, d) =>
      d.wrap = false ∧ d.source = "annotation" ∧ d.collection = ⟨.ordered, "deque"⟩ ∧
        d.instantiation = .lazy ∧ d.className = some "Lines" ∧ d.fieldName = some "parts" ∧
        d.nested.asBool? = some false ∧ d.plural.asBool? = some true) = true := by decide +kernel
  obtain ⟨⟨f, m, d⟩, hx, hd⟩ := (Option.any_eq_true _ _).mp hr
  obtain ⟨hf, hm, hr⟩ := resolved?_eq_some hx
  obtain ⟨ls, hl, -⟩ := exceptBind_eq_ok.mp hr
  obtain ⟨ofClass, ofProperty, hc, hp, -⟩ := layers_eq_ok.mp hl
  have ho : lazyTuples.rejections [] = .ok [] := rfl
  exact ⟨f, m, ofClass, ofProperty, d, hf, hm, ho, hc, hp, hr, of_decide_eq_true hd,
    ((resolve_eq_ok_iff_decided ho hc hp).1 d).mp hr⟩

end Customization

end Enfold
