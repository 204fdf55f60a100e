import Enfold.Proofs.Model.Built
import Enfold.Proofs.Model.Implementations
import Enfold.Proofs.Model.Listing
import Enfold.Session.Registry

/-! # Renaming as a substitution

The names of a class and of all that is nested in it are replaced one after another, in the episode
and in the factories of their packages. If no new name was in use before, this comes to replacing
them all at once: every reference and every entry keeps its place, and only those of the renamed
classes change.
-/

namespace Enfold

namespace Episode

variable {e : Episode} {old new : String} {refs : List String}

theorem refs_ofList (h : refs.Nodup) : (ofList refs).refs = refs := by
  suffices H : ∀ e : Episode, (e.refs ++ refs).Nodup → (refs.foldl add e).refs = e.refs ++ refs from
    H ⟨[]⟩ h
  clear h
  induction refs with
  | nil => exact fun e _ => (List.append_nil _).symm
  | cons r refs ih =>
    intro e h
    have hsplit : e.refs ++ r :: refs = e.refs ++ [r] ++ refs := by simp
    have hnew : r ∉ e.refs := fun hr =>
      (List.nodup_append.mp h).2.2 r hr r List.mem_cons_self rfl
    have hadd : e.add r = ⟨e.refs ++ [r]⟩ := by
      rw [add, if_neg (by simpa [contains] using hnew)]
    rw [List.foldl_cons, hadd, hsplit, ih _ (hsplit ▸ h)]

theorem nodup_add (h : e.refs.Nodup) (ref : String) : (e.add ref).refs.Nodup := by
  unfold add
  split
  · exact h
  · next hr =>
    have hr : ref ∉ e.refs := by simpa [contains] using hr
    exact List.nodup_append.mpr ⟨h, List.nodup_singleton ref, fun x hx y hy hxy =>
      hr (List.mem_singleton.mp hy ▸ hxy ▸ hx)⟩

theorem nodup_ofList (refs : List String) : (ofList refs).refs.Nodup := by
  suffices H : ∀ e : Episode, e.refs.Nodup → (refs.foldl add e).refs.Nodup from
    H ⟨[]⟩ List.nodup_nil
  induction refs with
  | nil => exact fun _ h => h
  | cons r refs ih => exact fun e h => ih _ (nodup_add h r)

theorem nodup_rename (h : e.refs.Nodup) : (e.rename old new).refs.Nodup := by
  unfold rename
  split
  · exact nodup_ofList _
  · exact h

theorem refs_rename (h : e.refs.Nodup) (hnew : new ∉ e.refs) :
    (e.rename old new).refs = e.refs.map fun r => if r = old then new else r := by
  unfold rename
  split
  · exact refs_ofList (Assoc.nodup_map_replace h hnew)
  · next hold =>
    refine ((List.map_congr_left fun r hr => if_neg ?_).trans (List.map_id _)).symm
    rintro rfl
    exact hold (by simpa [contains] using hr)

end Episode

theorem Pointless.eq_of_append {a b x y : String} (ha : Pointless a) (hb : Pointless b)
    (hx : x = "" ∨ ∃ z, x = "." ++ z) (hy : y = "" ∨ ∃ z, y = "." ++ z) (h : a ++ x = b ++ y) :
    a = b := by
  have first {a x : String} (ha : Pointless a) (hx : x = "" ∨ ∃ z, x = "." ++ z) :
      (Text.cutAt '.' (a ++ x).toList).1 = a.toList := by
    rcases hx with rfl | ⟨z, rfl⟩
    · rw [String.append_empty, Text.cutAt_of_notMem ha]
    · have := Text.cutAt_append ha z.toList
      simp [this]
  exact String.toList_injective ((first ha hx).symm.trans (h ▸ first hb hy))

namespace Model

variable {m m' : Model} {c d k : ClassId} {old new name ref : String}

structure ListsOnce (m : Model) : Prop where
  refs : ∀ e ∈ m.episode, e.refs.Nodup
  packages : (Assoc.keys m.factories).Nodup
  entries : ∀ f ∈ m.factories, (Assoc.keys f.2).Nodup

/-- The classes that are renamed together, each with its name before. -/
def formerNames (m : Model) (c : ClassId) : List (ClassId × String) :=
  (m.subtree c).map fun k => (k, m.qualifiedName k)

def renamed (m : Model) (before : List (ClassId × String)) (ref : String) : String :=
  ((before.find? fun x => x.2 = ref).map fun x => m.qualifiedName x.1).getD ref

/-- An entry under the new name of its class, with the implementation of the class. -/
def refiled (m : Model) (before : List (ClassId × String)) (e : String × String) :
    String × String :=
  ((before.find? fun x => x.2 = e.1).map fun x =>
    (m.qualifiedName x.1, ((m.decl x.1).implementation.filter (· ≠ "")).getD e.2)).getD e

/-! ### One class is followed -/

theorem renamed_cons (x : ClassId × String) (before : List (ClassId × String)) (ref : String) :
    m.renamed (x :: before) ref =
      if x.2 = ref then m.qualifiedName x.1 else m.renamed before ref := by
  unfold renamed
  rw [List.find?_cons]
  by_cases h : x.2 = ref <;> simp [h]

theorem renamed_of_notMem {before : List (ClassId × String)} (h : ∀ x ∈ before, x.2 ≠ ref) :
    m.renamed before ref = ref := by
  rw [renamed, List.find?_eq_none.mpr (by simpa using h)]
  rfl

theorem renamed_of_mem {before : List (ClassId × String)} (hn : (before.map Prod.snd).Nodup)
    {x : ClassId × String} (hx : x ∈ before) : m.renamed before x.2 = m.qualifiedName x.1 := by
  induction before with
  | nil => cases hx
  | cons y before ih =>
    obtain ⟨hy, hn⟩ := List.nodup_cons.mp hn
    rw [renamed_cons]
    rcases List.mem_cons.mp hx with rfl | hx
    · exact if_pos rfl
    · have hne : y.2 ≠ x.2 := fun he => hy (he ▸ List.mem_map_of_mem hx)
      rw [if_neg hne, ih hn hx]

theorem refiled_cons (x : ClassId × String) (before : List (ClassId × String))
    (e : String × String) : m.refiled (x :: before) e = if x.2 = e.1 then
        (m.qualifiedName x.1, ((m.decl x.1).implementation.filter (· ≠ "")).getD e.2)
      else m.refiled before e := by
  unfold refiled
  rw [List.find?_cons]
  by_cases h : x.2 = e.1 <;> simp [h]

theorem refiled_of_notMem {before : List (ClassId × String)} {e : String × String}
    (h : ∀ x ∈ before, x.2 ≠ e.1) : m.refiled before e = e := by
  rw [refiled, List.find?_eq_none.mpr (by simpa using h)]
  rfl

theorem episode_followEpisode (h : m.findClass? old = none)
    (hn : ∀ e, m.episode = some e → e.refs.Nodup ∧ new ∉ e.refs) :
    (m.followEpisode old new).episode =
      m.episode.map fun e => ⟨e.refs.map fun r => if r = old then new else r⟩ := by
  unfold followEpisode
  cases he : m.episode with
  | none => exact he
  | some e =>
    obtain ⟨hnodup, hnew⟩ := hn e he
    have hrefs : (e.rename old new).refs = _ := Episode.refs_rename hnodup hnew
    dsimp only
    rw [Option.map_some, ← hrefs, h]
    split
    · next hc =>
      -- What is not listed is written nowhere.
      rw [he, Episode.rename, if_neg (by simpa using hc)]
    · rfl

theorem modifyFactory_eq_map {package : Option String} {f : Factory} {F : Factory → Factory}
    (hn : (Assoc.keys m.factories).Nodup) (hf : Assoc.get? package m.factories = some f) :
    (m.modifyFactory package F).factories =
      m.factories.map fun g => (g.1, if g.1 = package then F g.2 else g.2) := by
  have hk : package ∈ Assoc.keys m.factories := Assoc.isSome_get?.mp (by rw [hf]; rfl)
  rw [modifyFactory, hf, Option.getD_some, Assoc.put_eq_map hn hk]
  refine List.map_congr_left fun g hg => ?_
  split
  · next hg' =>
    have : Assoc.get? package m.factories = some g.2 := Assoc.get?_of_mem hn (hg' ▸ hg)
    rw [hf] at this
    rw [← hg', Option.some.inj this]
  · rfl

def refile (old new : String) (i : Option String) (e : String × String) : String × String :=
  if e.1 = old then (new, i.getD e.2) else e

theorem map_refile_of_notMem {f : Factory} (h : old ∉ Assoc.keys f) (new : String)
    (i : Option String) : f.map (refile old new i) = f := by
  refine (List.map_congr_left fun e he => if_neg ?_).trans (List.map_id f)
  rintro rfl
  exact h (List.mem_map_of_mem he)

theorem ListsOnce.eq_of_get? (hm : m.ListsOnce) {p : Option String} {f : Factory}
    (hf : Assoc.get? p m.factories = some f) {g : Option String × Factory}
    (hg : g ∈ m.factories) (hp : g.1 = p) : g.2 = f := by
  subst hp
  exact Option.some.inj ((Assoc.get?_of_mem hm.packages hg).symm.trans hf)

/-- The entry of a class that is followed stays in its place. -/
theorem factories_followFactory (hm : m.ListsOnce)
    (hnew : ∀ f ∈ m.factories, new ∉ Assoc.keys f.2) :
    (m.followFactory c old new).factories = m.factories.map fun f =>
      (f.1, if f.1 = (m.decl c).package then
        f.2.map (refile old new ((m.decl c).implementation.filter (· ≠ ""))) else f.2) := by
  -- Nothing happens to factories that do not have the old name.
  have unchanged (i : Option String)
      (h : ∀ f ∈ m.factories, f.1 = (m.decl c).package → old ∉ Assoc.keys f.2) :
      m.factories = m.factories.map fun f => (f.1, if f.1 = (m.decl c).package then
        f.2.map (refile old new i) else f.2) := by
    refine ((List.map_congr_left fun f hf => ?_).trans (List.map_id _)).symm
    split
    · next hp => rw [map_refile_of_notMem (h f hf hp)]; rfl
    · rfl
  unfold followFactory
  dsimp only
  cases hf : Assoc.get? (m.decl c).package m.factories with
  | none =>
    refine unchanged _ fun f hmem hp => ?_
    rw [← hp, Assoc.get?_of_mem hm.packages hmem] at hf
    cases hf
  | some f =>
    have hmem := Assoc.mem_of_get? hf
    dsimp only
    split
    · next hold =>
      have hold := Assoc.isSome_get?.mp hold
      rw [modifyFactory_eq_map hm.packages hf]
      refine List.map_congr_left fun g hg => ?_
      split
      · next hp =>
        rw [hm.eq_of_get? hf hg hp]
        congr 1
        cases (m.decl c).implementation.filter (· ≠ "") with
        | some i => exact Assoc.put_rename_eq_map (hm.entries _ hmem) hold (hnew _ hmem) i
        | none =>
          refine (Assoc.rename_eq_map (hm.entries _ hmem) (hnew _ hmem)).trans ?_
          refine List.map_congr_left fun e _ => ?_
          unfold refile
          split <;> rfl
      · rfl
    · next hold =>
      refine unchanged _ fun g hg hp hmem' => hold ?_
      exact Assoc.isSome_get?.mpr (hm.eq_of_get? hf hg hp ▸ hmem')

/-! ### What is listed is listed once -/

namespace ListsOnce

theorem keyedOnce (hm : m.ListsOnce) : m.KeyedOnce := fun _ _ hf =>
  hm.entries _ (Assoc.mem_of_get? hf)

theorem modifyFactory (hm : m.ListsOnce) {package : Option String} {F : Factory → Factory}
    (hF : ∀ f, (Assoc.keys f).Nodup → (Assoc.keys (F f)).Nodup) :
    (m.modifyFactory package F).ListsOnce := by
  have hn : (Assoc.keys (m.modifyFactory package F).factories).Nodup :=
    Assoc.nodup_keys_put hm.packages
  exact ⟨hm.refs, hn, fun f hf => hm.keyedOnce.modifyFactory hF f.1 f.2 (Assoc.get?_of_mem hn hf)⟩

theorem followEpisode (hm : m.ListsOnce) : (m.followEpisode old new).ListsOnce := by
  unfold Model.followEpisode
  split
  · exact hm
  · next e he =>
    have hnodup := hm.refs e he
    split
    · exact hm
    · split
      · exact ⟨by rintro _ ⟨⟩; exact Episode.nodup_rename hnodup, hm.packages, hm.entries⟩
      · exact ⟨by rintro _ ⟨⟩; exact Episode.nodup_add hnodup _, hm.packages, hm.entries⟩

theorem followFactory (hm : m.ListsOnce) : (m.followFactory c old new).ListsOnce := by
  unfold Model.followFactory
  dsimp only
  split
  · exact hm
  · split
    · refine hm.modifyFactory fun f _ => ?_
      split
      · exact Assoc.nodup_keys_put (Assoc.nodup_keys_rename f)
      · exact Assoc.nodup_keys_rename f
    · exact hm

theorem follow (hm : m.ListsOnce) (x : ClassId × String) : (m.follow x).ListsOnce :=
  hm.followEpisode.followFactory

theorem congr (hm : m.ListsOnce) (he : m'.episode = m.episode)
    (hf : m'.factories = m.factories) : m'.ListsOnce where
  refs := he ▸ hm.refs
  packages := hf ▸ hm.packages
  entries := hf ▸ hm.entries

theorem foldl_follow (before : List (ClassId × String)) (hm : m.ListsOnce) :
    (before.foldl Model.follow m).ListsOnce := by
  induction before generalizing m with
  | nil => exact hm
  | cons x before ih => exact ih (hm.follow x)

theorem renameClass (hm : m.ListsOnce) (c : ClassId) (name : String) :
    (m.renameClass c name).ListsOnce := by
  rw [renameClass_eq]
  exact (hm.congr (episode_relabel m c name) (factories_relabel m c name)).foldl_follow _

theorem withEpisode (hm : m.ListsOnce) {e : Episode} (he : e.refs.Nodup) :
    ListsOnce { m with episode := some e } :=
  ⟨by rintro _ ⟨⟩; exact he, hm.packages, hm.entries⟩

theorem callEpisode {call : String} {given : List String} {v : Value} (hm : m.ListsOnce)
    (h : m.callEpisode call given = .ok (m', v)) : m'.ListsOnce := by
  unfold Model.callEpisode at h
  dsimp only at h
  split at h
  · cases h
    exact hm.withEpisode (Episode.nodup_ofList given)
  · cases h
  · next e _ he =>
    have hn := hm.refs e he
    split at h <;> cases h
    · exact hm.withEpisode (Episode.nodup_add hn _)
    · exact hm.withEpisode (hn.filter _)
    · exact hm.withEpisode (Episode.nodup_rename hn)
    · exact hm.withEpisode hn
    · exact hm.withEpisode hn

theorem callFactory (hm : m.ListsOnce) (package : Option String) (call : String)
    (given : List String) : (m.callFactory package call given).1.ListsOnce := by
  have hid : (m.modifyFactory package id).ListsOnce := hm.modifyFactory fun _ h => h
  unfold Model.callFactory
  dsimp only
  split
  · exact hid.modifyFactory fun _ h => Assoc.nodup_keys_put h
  · split
    · exact hid.modifyFactory fun f _ => Assoc.nodup_keys_rename f
    · exact hid
  · exact hid
  · exact hid

end ListsOnce

mutual

theorem episode_addTree (package : Option String) (parent : Option ClassId) :
    ∀ (t : ClassTree) (d : Draft), (d.addTree package parent t).model.episode = d.model.episode
  | .node e nested, d => by
    rw [Draft.addTree]
    refine (episode_addTrees package _ nested _).trans ?_
    have hadd (xs : List Property) (m : Model) (c : ClassId) :
        (xs.foldl (fun m x => m.addProperty c x) m).episode = m.episode := by
      induction xs generalizing m with
      | nil => rfl
      | cons x xs ih => exact ih _
    exact hadd e.properties _ _

theorem episode_addTrees (package : Option String) (parent : Option ClassId) :
    ∀ (ts : List ClassTree) (d : Draft), (d.addTrees package parent ts).model.episode = d.model.episode
  | [], d => by rw [Draft.addTrees]
  | t :: r, d => by rw [Draft.addTrees, episode_addTrees package parent r, episode_addTree]

end

/-- A model that was built from a value lists each class once. -/
theorem listsOnce_ofValue {v : Value} (h : ofValue v = .ok m) : m.ListsOnce := by
  have hfactories := (described_ofValue h).factories
  refine ⟨fun e he => ?_, by rw [hfactories]; exact List.nodup_nil, by simp [hfactories]⟩
  obtain ⟨_, -, d, -, h⟩ := ofValue_eq_ok.mp h
  have hepisode : m.episode = d.episode.map Episode.ofList := by
    refine (foldlM_invariant (P := fun n : Model => n.episode = d.episode.map Episode.ofList)
      (fun link _ n n' hn hlink => ?_) (episode_addTrees _ _ _ _) h)
    unfold linkBase at hlink
    split at hlink <;> cases hlink
    exact hn
  rw [hepisode] at he
  obtain ⟨refs, -, rfl⟩ := Option.map_eq_some_iff.mp he
  exact Episode.nodup_ofList refs

/-! ### All classes are followed in their turn -/

/-- The new names are all different and nowhere in use, and no former name is left. -/
structure Fresh (m : Model) (before : List (ClassId × String)) : Prop where
  gone : ∀ x ∈ before, m.findClass? x.2 = none
  nodup : (before.map fun x => m.qualifiedName x.1).Nodup
  apart : ∀ x ∈ before, ∀ y ∈ before, m.qualifiedName x.1 ≠ y.2
  unlisted : ∀ x ∈ before, ∀ e ∈ m.episode, m.qualifiedName x.1 ∉ e.refs
  unfiled : ∀ x ∈ before, ∀ f ∈ m.factories, m.qualifiedName x.1 ∉ Assoc.keys f.2

theorem episode_follow {x : ClassId × String} {before : List (ClassId × String)}
    (hm : m.ListsOnce) (h : m.Fresh (x :: before)) : (m.follow x).episode =
      m.episode.map fun e => ⟨e.refs.map fun r => if r = x.2 then m.qualifiedName x.1 else r⟩ := by
  rw [follow, episode_followFactory]
  exact episode_followEpisode (h.gone x List.mem_cons_self) fun e he =>
    ⟨hm.refs e he, h.unlisted x List.mem_cons_self e he⟩

theorem factories_follow {x : ClassId × String} {before : List (ClassId × String)}
    (hm : m.ListsOnce) (h : m.Fresh (x :: before)) : (m.follow x).factories =
      m.factories.map fun f => (f.1, if f.1 = (m.decl x.1).package then
        f.2.map (refile x.2 (m.qualifiedName x.1)
          ((m.decl x.1).implementation.filter (· ≠ ""))) else f.2) := by
  obtain ⟨hf, hc⟩ := factories_followEpisode m x.2 (m.qualifiedName x.1)
  rw [follow, factories_followFactory hm.followEpisode, hf, decl_congr hc]
  rw [hf]
  exact h.unfiled x List.mem_cons_self

theorem Fresh.follow {x : ClassId × String} {before : List (ClassId × String)}
    (hm : m.ListsOnce) (h : m.Fresh (x :: before)) : (m.follow x).Fresh before := by
  have hc := classes_follow m x
  have hq (d) : (m.follow x).qualifiedName d = m.qualifiedName d :=
    qualifiedName_congr_classes hc d
  obtain ⟨hnotMem, hnodup⟩ := List.nodup_cons.mp h.nodup
  have later {y} (hy : y ∈ before) := List.mem_cons_of_mem x hy
  have hne {y} (hy : y ∈ before) : m.qualifiedName x.1 ≠ m.qualifiedName y.1 := fun he =>
    hnotMem (List.mem_map.mpr ⟨y, hy, he.symm⟩)
  refine ⟨fun y hy => ?_, ?_, fun y hy z hz => ?_, fun y hy e he hmem => ?_,
    fun y hy f hf hmem => ?_⟩
  · rw [findClass?_congr_classes hc]
    exact h.gone y (later hy)
  · simpa only [hq] using hnodup
  · rw [hq]
    exact h.apart y (later hy) z (later hz)
  · rw [episode_follow hm h] at he
    obtain ⟨e', he', rfl⟩ := Option.map_eq_some_iff.mp he
    obtain ⟨r, hr, hry⟩ := List.mem_map.mp hmem
    rw [hq] at hry
    split at hry
    · exact hne hy hry
    · exact h.unlisted y (later hy) e' he' (hry ▸ hr)
  · rw [factories_follow hm h] at hf
    obtain ⟨f', hf', rfl⟩ := List.mem_map.mp hf
    rw [hq] at hmem
    dsimp only at hmem
    split at hmem
    · obtain ⟨_, hmap, hey⟩ := List.mem_map.mp hmem
      obtain ⟨e, he, rfl⟩ := List.mem_map.mp hmap
      unfold refile at hey
      split at hey
      · exact hne hy hey
      · exact h.unfiled y (later hy) f' hf' (hey ▸ List.mem_map_of_mem he)
    · exact h.unfiled y (later hy) f' hf' hmem

theorem renamed_congr (h : m'.classes = m.classes) (before : List (ClassId × String)) :
    m'.renamed before = m.renamed before := by
  funext ref
  simp only [renamed, qualifiedName_congr_classes h]

theorem refiled_congr (h : m'.classes = m.classes) (before : List (ClassId × String)) :
    m'.refiled before = m.refiled before := by
  funext e
  simp only [refiled, qualifiedName_congr_classes h, decl_congr h]

/-- References are replaced one after another as if all at once. -/
theorem episode_foldl_follow {before : List (ClassId × String)} (hm : m.ListsOnce)
    (h : m.Fresh before) : (before.foldl follow m).episode =
      m.episode.map fun e => ⟨e.refs.map (m.renamed before)⟩ := by
  induction before generalizing m with
  | nil =>
    have hnil : m.renamed [] = id := rfl
    simp [hnil]
  | cons x before ih =>
    rw [List.foldl_cons, ih (hm.follow x) (h.follow hm), episode_follow hm h, Option.map_map,
      renamed_congr (classes_follow m x)]
    congr 1
    funext e
    simp only [Function.comp, List.map_map]
    congr 1
    refine List.map_congr_left fun r _ => ?_
    rw [Function.comp, renamed_cons]
    by_cases hr : r = x.2
    · rw [if_pos hr, if_pos hr.symm]
      exact renamed_of_notMem fun y hy => (h.apart x List.mem_cons_self y
        (List.mem_cons_of_mem x hy)).symm
    · rw [if_neg hr, if_neg (Ne.symm hr)]

theorem factories_foldl_follow {before : List (ClassId × String)} (hm : m.ListsOnce)
    (h : m.Fresh before) : (before.foldl follow m).factories = m.factories.map fun f =>
      (f.1, f.2.map (m.refiled (before.filter fun x => (m.decl x.1).package = f.1))) := by
  induction before generalizing m with
  | nil =>
    have hnil : m.refiled [] = id := rfl
    simp [hnil]
  | cons x before ih =>
    have hc := classes_follow m x
    rw [List.foldl_cons, ih (hm.follow x) (h.follow hm), factories_follow hm h, List.map_map]
    simp only [refiled_congr hc, decl_congr hc]
    refine List.map_congr_left fun f _ => ?_
    rw [Function.comp, List.filter_cons]
    by_cases hp : (m.decl x.1).package = f.1
    · rw [if_pos hp.symm, if_pos (by simpa using hp), List.map_map]
      refine congrArg _ (List.map_congr_left fun e _ => ?_)
      rw [Function.comp, refiled_cons, refile]
      by_cases he : e.1 = x.2
      · rw [if_pos he, if_pos he.symm]
        exact refiled_of_notMem fun y hy => (h.apart x List.mem_cons_self y
          (List.mem_cons_of_mem x (List.mem_filter.mp hy).1)).symm
      · rw [if_neg he, if_neg (Ne.symm he)]
    · rw [if_neg (Ne.symm hp), if_neg (by simpa using hp)]

/-! ### A class is renamed -/

theorem exists_localName_renameClass (hc : c.index < m.classes.size) (name : String) :
    ∃ stem, m.localName c = stem ++ (m.decl c).name ∧
      (m.renameClass c name).localName c = stem ++ name := by
  have hr := m.relabelled_renameClass c name
  have hself := name_renameClass hc name
  rw [localName, localName, (hr.parent_eq c).1, hself]
  cases (m.decl c).parent with
  | none => exact ⟨"", by simp, by simp⟩
  | some b =>
    dsimp only
    split
    · next hlt =>
      refine ⟨m.localName b ++ ".", rfl, ?_⟩
      rw [hr.localName_of_notMem fun k hk hb => ?_]
      rw [List.mem_singleton.mp hk] at hb
      exact absurd hlt (Nat.not_lt.mpr (index_le_of_mem_subtree hb))
    · exact ⟨"", by simp, by simp⟩

/-- A new name for a class that keeps all qualified names apart. -/
structure Renamable (m : Model) (c : ClassId) (name : String) : Prop where
  mem : c ∈ m.walk
  pointless : Pointless (m.decl c).name
  pointless_name : Pointless name
  ne : name ≠ (m.decl c).name
  distinct : (m.walk.map m.qualifiedName).Nodup
  distinct_after : (m.walk.map (m.renameClass c name).qualifiedName).Nodup
  unlisted : ∀ k ∈ m.subtree c, ∀ e ∈ m.episode,
    (m.renameClass c name).qualifiedName k ∉ e.refs
  unfiled : ∀ k ∈ m.subtree c, ∀ f ∈ m.factories,
    (m.renameClass c name).qualifiedName k ∉ Assoc.keys f.2

/-- In `m'` all that is nested in `c` has another name than in `m`, and nothing else. -/
structure Substituted (m m' : Model) (c : ClassId) (name : String) : Prop where
  members : ∀ k ∈ m.subtree c, m'.renamed (m.formerNames c) (m.qualifiedName k) = m'.qualifiedName k
  others : ∀ d ∈ m.walk, d ∉ m.subtree c → m'.decl d = m.decl d ∧
    m'.qualifiedName d = m.qualifiedName d ∧ ∀ k ∈ m.subtree c, m.qualifiedName k ≠ m.qualifiedName d
  unnamed : ∀ ref, (∀ k ∈ m.subtree c, m.qualifiedName k ≠ ref) →
    m'.renamed (m.formerNames c) ref = ref
  episode : m'.episode = m.episode.map fun e => ⟨e.refs.map (m'.renamed (m.formerNames c))⟩
  factories : m'.factories = m.factories.map fun f => (f.1, f.2.map
    (m'.refiled ((m.formerNames c).filter fun x => (m.decl x.1).package = f.1)))
  implementation : ∀ package,
    (m.decl c).implementation = some (inPackage package (implementationName (m.decl c).name)) →
    (m'.decl c).implementation = some (inPackage package (implementationName name)) ∧
      ∀ p ∈ m'.walkProperties, (m'.prop p).reference = some c →
        (m'.prop p).implementationType = some (inPackage package (implementationName name))

theorem Renamable.eq_of_qualifiedName (h : m.Renamable c name) (hk : k ∈ m.walk) (hd : d ∈ m.walk)
    (he : m.qualifiedName k = m.qualifiedName d) : k = d :=
  List.inj_on_of_nodup_map h.distinct hk hd he

theorem Renamable.ne_formerName (h : m.Renamable c name)
    (hp : ∀ k ∈ m.subtree c, (m.decl k).package = (m.decl c).package) (hk : k ∈ m.subtree c)
    (hd : d ∈ m.subtree c) : (m.renameClass c name).qualifiedName k ≠ m.qualifiedName d := by
  have hr := m.relabelled_renameClass c name
  obtain ⟨x, hx, -, hxnew⟩ := hr.localName_eq_append hk
  obtain ⟨y, hy, hyold, -⟩ := hr.localName_eq_append hd
  obtain ⟨stem, hold, hnew⟩ := exists_localName_renameClass (lt_of_mem_walk h.mem) name
  rw [Ne, qualifiedName_eq_iff (by rw [(hr.parent_eq k).2, hp k hk, hp d hd]), hxnew, hyold, hold,
    hnew, String.append_assoc, String.append_assoc, String.append_right_inj]
  exact fun he => h.ne (h.pointless_name.eq_of_append h.pointless hx hy he)

theorem Renamable.fresh (h : m.Renamable c name) (hapart : ∀ k ∈ m.subtree c, ∀ d ∈ m.subtree c,
    (m.renameClass c name).qualifiedName k ≠ m.qualifiedName d) :
    (m.relabel c name).Fresh (m.formerNames c) := by
  have hr := m.relabelled_renameClass c name
  have hq (d) := qualifiedName_renameClass m c d name
  have hwalk {k} (hk : k ∈ m.subtree c) : k ∈ m.walk := (sublist_walk h.mem).subset hk
  have hsame : (m.relabel c name).walk = m.walk := by
    rw [← hr.walk_eq, renameClass_eq, (relabelled_follow _ _ []).walk_eq]
  simp only [formerNames]
  refine ⟨?_, ?_, ?_, ?_, ?_⟩
  · rintro _ hx
    obtain ⟨k, hk, rfl⟩ := List.mem_map.mp hx
    refine List.find?_eq_none.mpr fun d hd => ?_
    rw [hsame] at hd
    rw [← hq, decide_eq_true_eq]
    by_cases hdc : d ∈ m.subtree c
    · exact hapart d hdc k hk
    · rw [hr.qualifiedName_of_notMem fun b hb => List.mem_singleton.mp hb ▸ hdc]
      exact fun he => hdc (h.eq_of_qualifiedName hd (hwalk hk) he ▸ hk)
  · rw [List.map_map]
    refine ((sublist_walk h.mem).map _).nodup ?_
    exact (List.map_congr_left fun d _ => hq d) ▸ h.distinct_after
  · rintro _ hx _ hy
    obtain ⟨k, hk, rfl⟩ := List.mem_map.mp hx
    obtain ⟨d, hd, rfl⟩ := List.mem_map.mp hy
    exact hq k ▸ hapart k hk d hd
  · rintro _ hx e he
    obtain ⟨k, hk, rfl⟩ := List.mem_map.mp hx
    exact hq k ▸ h.unlisted k hk e (episode_relabel m c name ▸ he)
  · rintro _ hx f hf
    obtain ⟨k, hk, rfl⟩ := List.mem_map.mp hx
    exact hq k ▸ h.unfiled k hk f (factories_relabel m c name ▸ hf)

theorem implementation_of_renameClass (hc : c.index < m.classes.size)
    (hold : Pointless (m.decl c).name) {package : Option String} (himpl : (m.decl c).implementation =
      some (inPackage package (implementationName (m.decl c).name))) :
    ((m.renameClass c name).decl c).implementation =
      some (inPackage package (implementationName name)) ∧
    ∀ p ∈ (m.renameClass c name).walkProperties, ((m.renameClass c name).prop p).reference = some c →
      ((m.renameClass c name).prop p).implementationType =
        some (inPackage package (implementationName name)) := by
  obtain ⟨path, hpath⟩ := exists_inPackage_eq_besideLast package
  rw [hpath] at himpl ⊢
  refine ⟨by rw [implementation_renameClass_self hc, himpl, Option.map_some,
    followedImplementation_besideLast hold], fun p hp href => ?_⟩
  have hr : m.Relabelled (m.modifyClass c fun d => { d with name := name }) [c] :=
    relabelled_modifyClass fun e => ⟨_, _, rfl⟩
  have hsame : ((m.modifyClass c fun d => { d with name := name }).decl c).implementation =
      (m.decl c).implementation := by rw [decl_modifyClass hc, if_pos rfl]
  have hset : m.relabel c name = (m.modifyClass c fun d => { d with name := name }).setImplementation
      c (besideLast path (implementationName name)) := by
    unfold relabel
    dsimp only
    rw [hsame, himpl, Option.bind_some, renamedImplementation?_besideLast hold]
  rw [(m.relabelled_renameClass c name).walkProperties_eq, ← hr.walkProperties_eq] at hp
  rw [prop_renameClass, hset, prop_setImplementation] at href ⊢
  split at href
  · next h => rw [if_pos h]
  · next h => exact absurd ⟨hp, href⟩ h

theorem Renamable.substituted (h : m.Renamable c name) (hm : m.ListsOnce)
    (hapart : ∀ k ∈ m.subtree c, ∀ d ∈ m.subtree c,
      (m.renameClass c name).qualifiedName k ≠ m.qualifiedName d) :
    m.Substituted (m.renameClass c name) c name := by
  have hr := m.relabelled_renameClass c name
  have hclasses : (m.renameClass c name).classes = (m.relabel c name).classes := by
    rw [renameClass_eq, classes_foldl_follow]
  have hwalk {k} (hk : k ∈ m.subtree c) : k ∈ m.walk := (sublist_walk h.mem).subset hk
  have hfresh := h.fresh hapart
  have hlists : (m.relabel c name).ListsOnce :=
    hm.congr (episode_relabel m c name) (factories_relabel m c name)
  refine ⟨fun k hk => ?_, fun d hd hdc => ⟨?_, ?_, fun k hk he => ?_⟩, fun ref href => ?_, ?_, ?_,
    fun package himpl => implementation_of_renameClass (lt_of_mem_walk h.mem) h.pointless himpl⟩
  · refine renamed_of_mem ?_ (x := (k, m.qualifiedName k)) (List.mem_map.mpr ⟨k, hk, rfl⟩)
    rw [formerNames, List.map_map]
    exact ((sublist_walk h.mem).map m.qualifiedName).nodup h.distinct
  · refine hr.decl_eq d fun hdc' => hdc ?_
    exact List.mem_singleton.mp hdc' ▸ mem_subtree_self m c
  · exact hr.qualifiedName_of_notMem fun b hb => List.mem_singleton.mp hb ▸ hdc
  · exact hdc (h.eq_of_qualifiedName (hwalk hk) hd he ▸ hk)
  · refine renamed_of_notMem fun x hx => ?_
    obtain ⟨k, hk, rfl⟩ := List.mem_map.mp hx
    exact href k hk
  · rw [renamed_congr hclasses, renameClass_eq, ← formerNames, episode_foldl_follow hlists hfresh,
      episode_relabel]
  · simp only [refiled_congr hclasses]
    rw [renameClass_eq, ← formerNames, factories_foldl_follow hlists hfresh, factories_relabel]
    simp only [package_relabel]

/-- A renaming that keeps names apart replaces the former ones, provided that no class gets one of
these. In one package it gets none. -/
theorem substituted_of_renameClass (hm : m.ListsOnce) (h : m.Renamable c name) :
    ((∀ k ∈ m.subtree c, (m.decl k).package = (m.decl c).package) →
      ∀ k ∈ m.subtree c, ∀ d ∈ m.subtree c,
        (m.renameClass c name).qualifiedName k ≠ m.qualifiedName d) ∧
    ((∀ k ∈ m.subtree c, ∀ d ∈ m.subtree c,
        (m.renameClass c name).qualifiedName k ≠ m.qualifiedName d) →
      m.Substituted (m.renameClass c name) c name) := by
  refine ⟨fun hp k hk d hd => ?_, fun hapart => ?_⟩
  · exact h.ne_formerName hp hk hd
  · exact h.substituted hm hapart

def filedOrder : Model where
  classes := #[
    { name := "Order", package := some "shop", implementation := some "shop.impl.OrderImpl" },
    { name := "Line", package := some "shop", parent := some ⟨0⟩ },
    { name := "Customer", package := some "shop", properties := [⟨0⟩] }]
  properties := #[
    { name := "order", valueType := none, owner := some ⟨2⟩, reference := some ⟨0⟩ }]
  episode := some ⟨["shop.Order.Line", "shop.Customer", "shop.Order"]⟩
  factories := [(some "shop", [("shop.Customer", "shop.impl.CustomerImpl"),
    ("shop.Order", "shop.impl.OrderImpl"), ("shop.Order.Line", "shop.impl.LineImpl")])]

theorem substituted_of_filedOrder : filedOrder.ListsOnce ∧ filedOrder.Renamable ⟨0⟩ "Purchase" ∧
    filedOrder.Substituted (filedOrder.renameClass ⟨0⟩ "Purchase") ⟨0⟩ "Purchase" := by
  have hm : filedOrder.ListsOnce := by constructor <;> decide +kernel
  have h : filedOrder.Renamable ⟨0⟩ "Purchase" := by constructor <;> decide +kernel
  obtain ⟨hapart, hsubstituted⟩ := substituted_of_renameClass hm h
  exact ⟨hm, h, hsubstituted (hapart (by decide +kernel))⟩

/-- A class in a package with the name that the class around it is about to get. -/
def drawer : Model where
  classes := #[{ name := "A", package := some "z.A" },
    { name := "B", package := some "z", parent := some ⟨0⟩ }]
  episode := some ⟨["z.A.A"]⟩

/-- A class in the factory of another package, with an implementation of another name. -/
def filedElsewhere : Model where
  classes := #[{ name := "A", package := some "p", implementation := some "p.ExtraAImpl" }]
  factories := [(some "other", [("p.A", "p.ExtraAImpl")])]

/-- A reference is replaced twice if a class gets the former name of another. -/
theorem drawer_not_substituted :
    (drawer.ListsOnce ∧ drawer.Renamable ⟨0⟩ "B" ∧
      (drawer.renameClass ⟨0⟩ "B").episode ≠ drawer.episode.map fun e =>
        ⟨e.refs.map ((drawer.renameClass ⟨0⟩ "B").renamed (drawer.formerNames ⟨0⟩))⟩) ∧
    (filedElsewhere.ListsOnce ∧ filedElsewhere.Renamable ⟨0⟩ "B" ∧
      (filedElsewhere.renameClass ⟨0⟩ "B").factories ≠ (filedElsewhere.factories.map fun f =>
        (f.1, f.2.map
          ((filedElsewhere.renameClass ⟨0⟩ "B").refiled (filedElsewhere.formerNames ⟨0⟩)))) ∧
      ((filedElsewhere.renameClass ⟨0⟩ "B").decl ⟨0⟩).implementation = some "p.ExtraAImpl") := by
  refine ⟨⟨?_, ?_, by decide +kernel⟩, ?_, ?_, by decide +kernel, by decide +kernel⟩ <;>
    constructor <;> decide +kernel

end Model
end Enfold
