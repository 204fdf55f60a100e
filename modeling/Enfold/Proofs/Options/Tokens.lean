import Mathlib.Data.List.Induction
import Enfold.Options.Token
import Enfold.Proofs.Assoc
import Enfold.Proofs.Except

/-! # Command lines one behind the other

A token either decides for itself what it does or asks for the next one. So a command line that is
read to its end leaves no option without its value, and another one behind it is read as if it stood
alone. Its entries go on top of those before it.
-/

namespace Enfold.Options

variable {t : String} {a : List String} {read : RawOptions}

/-- Without the blanks around it the token does not start with our mark. -/
def IsForeign (token : String) : Prop :=
  ¬ (tokenMark ++ ":").toList <+: (Text.trim token).toList

instance (token : String) : Decidable (IsForeign token) := inferInstanceAs (Decidable (¬ _))

theorem marked?_eq_none (h : IsForeign t) : marked? (Text.trim t) = none := by
  unfold IsForeign at h
  simpa [marked?] using h

theorem readTokens_cons_of_isForeign (h : IsForeign t) (base : RawOptions) (rest : List String) :
    readTokens base (t :: rest) = readTokens base rest := by
  simp only [readTokens, marked?_eq_none h]

theorem readTokens_append_of_isForeign {hosts : List String} (h : ∀ t ∈ hosts, IsForeign t)
    (base : RawOptions) (rest : List String) :
    readTokens base (hosts ++ rest) = readTokens base rest := by
  induction hosts with
  | nil => rfl
  | cons t hosts ih =>
    obtain ⟨ht, hosts⟩ := List.forall_mem_cons.mp h
    rw [List.cons_append, readTokens_cons_of_isForeign ht, ih hosts]

/-- A token is passed over, is wrong, gives an entry, or asks the next for a value. -/
inductive Role (t : String) : Prop where
  | passed (skip : ∀ base rest, readTokens base (t :: rest) = readTokens base rest)
  | wrong (e : ConfigError) (fail : ∀ base rest, readTokens base (t :: rest) = .error e)
  | gives (key : String) (v : Value)
    (give : ∀ base rest, readTokens base (t :: rest) = readTokens (Assoc.put key v base) rest)
  | asks (key : String) (e : ConfigError) (alone : ∀ base, readTokens base [t] = .error e)
    (refuse : ∀ base v rest, v.toList.head? = some '-' →
      readTokens base (t :: v :: rest) = .error e)
    (take : ∀ base v rest, v.toList.head? ≠ some '-' →
      readTokens base (t :: v :: rest) = readTokens (Assoc.put key (.text (Text.trim v)) base) rest)

theorem role (t : String) : Role t := by
  cases hm : marked? (Text.trim t) with
  | none =>
    apply Role.passed
    intro base rest
    simp only [readTokens, hm]
  | some body =>
    cases ho : Assoc.get? (String.ofList (Text.cutAt ' ' body).1) tokenOptions with
    | none =>
      apply Role.wrong (.unknownToken (Text.trim t))
      intro base rest
      simp only [readTokens, hm, ho]
    | some option =>
      obtain ⟨key, takesValue⟩ := option
      by_cases hv : Text.trim (String.ofList ((Text.cutAt ' ' body).2.getD [])) = ""
      · cases takesValue with
        | false =>
          apply Role.gives key (.bool true)
          intro base rest
          simp only [readTokens, hm, ho, hv, if_true]
        | true =>
          apply Role.asks key (.valueRequired (String.ofList (Text.cutAt ' ' body).1))
          · intro base
            simp only [readTokens, hm, ho, hv, if_true]
          · intro base v rest h
            simp only [readTokens, hm, ho, hv, h, if_true]
          · intro base v rest h
            simp only [readTokens, hm, ho, hv, h, if_true, if_false]
      · cases takesValue with
        | false =>
          apply Role.wrong (.valueNotTaken (String.ofList (Text.cutAt ' ' body).1))
          intro base rest
          simp only [readTokens, hm, ho, hv, if_false]
        | true =>
          apply Role.gives key (.text (Text.trim (String.ofList ((Text.cutAt ' ' body).2.getD []))))
          intro base rest
          simp only [readTokens, hm, ho, hv, if_false]

/-- The same entries are put whatever stands before and behind. -/
def Complete (a : List String) (entries : List (String × Value)) : Prop :=
  ∀ base b, readTokens base (a ++ b) = readTokens (Assoc.merge base entries) b

theorem Complete.readTokens_eq {entries : List (String × Value)} (h : Complete a entries)
    (base : RawOptions) : readTokens base a = .ok (Assoc.merge base entries) := by
  have hnil := h base []
  rwa [List.append_nil] at hnil

theorem wrong_or_complete (a : List String) :
    (∃ e, ∀ base, readTokens base a = .error e) ∨ ∃ entries, Complete a entries := by
  -- an option takes one token or two, so the rest behind the second is needed as well
  induction a using List.twoStepInduction with
  | nil => exact Or.inr ⟨[], fun base b => rfl⟩
  | singleton t =>
    cases role t with
    | passed skip => exact Or.inr ⟨[], skip⟩
    | wrong e fail => exact Or.inl ⟨e, fun base => fail base []⟩
    | gives key v give => exact Or.inr ⟨[(key, v)], give⟩
    | asks key e alone refuse take => exact Or.inl ⟨e, alone⟩
  | cons_cons t v rest ih ihv =>
    cases role t with
    | passed skip =>
      rcases ihv v with ⟨e, he⟩ | ⟨entries, h⟩
      · exact Or.inl ⟨e, fun base => (skip base _).trans (he _)⟩
      · exact Or.inr ⟨entries, fun base b => (skip base _).trans (h _ b)⟩
    | wrong e fail => exact Or.inl ⟨e, fun base => fail base _⟩
    | gives key w give =>
      rcases ihv v with ⟨e, he⟩ | ⟨entries, h⟩
      · exact Or.inl ⟨e, fun base => (give base _).trans (he _)⟩
      · exact Or.inr ⟨(key, w) :: entries, fun base b => (give base _).trans (h _ b)⟩
    | asks key e alone refuse take =>
      by_cases hv : v.toList.head? = some '-'
      · exact Or.inl ⟨e, fun base => refuse base v rest hv⟩
      · rcases ih with ⟨e, he⟩ | ⟨entries, h⟩
        · exact Or.inl ⟨e, fun base => (take base v rest hv).trans (he _)⟩
        · exact Or.inr ⟨(key, .text (Text.trim v)) :: entries, fun base b =>
            (take base v _ hv).trans (h _ b)⟩

/-- A command line does what it does alone. -/
theorem readTokens_eq_map (base : RawOptions) (b : List String) :
    readTokens base b = (parseTokens b).map (Assoc.merge base) := by
  rcases wrong_or_complete b with ⟨e, he⟩ | ⟨entries, h⟩
  · rw [parseTokens, he, he, Except.map]
  · rw [parseTokens, h.readTokens_eq, h.readTokens_eq, Except.map, ← Assoc.ofList,
      Assoc.merge_ofList]

theorem exists_complete_of_parseTokens (ha : parseTokens a = .ok read) :
    ∃ entries, Complete a entries ∧ read = Assoc.ofList entries := by
  rcases wrong_or_complete a with ⟨e, he⟩ | ⟨entries, h⟩
  · cases (he []).symm.trans ha
  · refine ⟨entries, h, ?_⟩
    cases (h.readTokens_eq []).symm.trans ha
    rfl

theorem nodup_keys_of_parseTokens (ha : parseTokens a = .ok read) : (Assoc.keys read).Nodup := by
  obtain ⟨entries, -, rfl⟩ := exists_complete_of_parseTokens ha
  exact Assoc.nodup_keys_ofList entries

theorem parseTokens_append_eq_readTokens (ha : parseTokens a = .ok read) (b : List String) :
    parseTokens (a ++ b) = readTokens read b := by
  obtain ⟨entries, h, rfl⟩ := exists_complete_of_parseTokens ha
  exact h [] b

/-- A command line behind a complete one is read on its own, and counts first. -/
theorem parseTokens_append (ha : parseTokens a = .ok read) (b : List String) :
    parseTokens (a ++ b) = (parseTokens b).map (Assoc.merge read) ∧
    (∀ later, parseTokens b = .ok later → ∀ key, Assoc.get? key (Assoc.merge read later) =
      (Assoc.get? key later).or (Assoc.get? key read)) ∧
    ∀ hosts, (∀ t ∈ hosts, IsForeign t) →
      parseTokens (a ++ (hosts ++ b)) = parseTokens (a ++ b) := by
  refine ⟨?_, ?_, ?_⟩
  · rw [parseTokens_append_eq_readTokens ha, readTokens_eq_map]
  · intro later hb key
    rw [Assoc.get?_merge, Assoc.get?_reverse (nodup_keys_of_parseTokens hb)]
  · intro hosts hforeign
    rw [parseTokens_append_eq_readTokens ha, parseTokens_append_eq_readTokens ha,
      readTokens_append_of_isForeign hforeign]

theorem parseTokens_of_collection_twice : ∃ read later,
    parseTokens ["-Xxew:collection", " set ", "-Xxew:plural"] = .ok read ∧
    parseTokens ["-Xxew:collection list"] = .ok later ∧
    parseTokens (["-Xxew:collection", " set ", "-Xxew:plural"] ++
      (["-d", " -Xxewer"] ++ ["-Xxew:collection list"])) = .ok (Assoc.merge read later) ∧
    Assoc.keys (Assoc.merge read later) = ["collection", "plural"] ∧
    (Assoc.get? "collection" (Assoc.merge read later)).bind Value.asText? = some "list" ∧
    (Assoc.get? "plural" (Assoc.merge read later)).bind Value.asBool? = some true := by
  have h : ((parseTokens ["-Xxew:collection", " set ", "-Xxew:plural"]).toOption.any fun read =>
      (parseTokens ["-Xxew:collection list"]).toOption.any fun later =>
        Assoc.keys (Assoc.merge read later) = ["collection", "plural"] ∧
        (Assoc.get? "collection" (Assoc.merge read later)).bind Value.asText? = some "list" ∧
        (Assoc.get? "plural" (Assoc.merge read later)).bind Value.asBool? = some true) = true := by
    decide +kernel
  obtain ⟨read, ha, h⟩ := (Option.any_eq_true _ _).mp h
  obtain ⟨later, hb, hv⟩ := (Option.any_eq_true _ _).mp h
  have ha := toOption_eq_some.mp ha
  have hb := toOption_eq_some.mp hb
  have happend := parseTokens_append ha ["-Xxew:collection list"]
  refine ⟨read, later, ha, hb, ?_, of_decide_eq_true hv⟩
  rw [happend.2.2 _ (by decide), happend.1, hb]
  rfl

end Enfold.Options
