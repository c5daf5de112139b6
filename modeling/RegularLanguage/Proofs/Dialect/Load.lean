import RegularLanguage.Dialect.Load
import RegularLanguage.Proofs.Automaton.Basic
import RegularLanguage.Proofs.Dialect.Basic
/-!
# Which configurations describe dialects

A JSON value describes a dialect exactly if it is an object of known keys whose alphabet is a text
or a list of texts, or missing, and whose markers are different characters that are no operators
(`ofJson_eq_ok_iff`). The alphabet of a dialect may be replaced any number of times; only the last
one counts, and the seven special characters stay the same (`ofJson_succeeds_iff`).

| here | `relang` |
| --- | --- |
| `IsConfiguration` | what `load_config` accepts |
| `remake` | `with_alphabet`, with the checks of `RegexConfig` |
-/

namespace RegularLanguage

namespace Dialect

/-! ## Configurations -/

/-- The symbols that the value of a key describes: the characters of a text or the texts of a list;
all symbols are allowed if there is no value, or `null`. -/
inductive GivesAlphabet : Option Json.Value → Option (List Symbol) → Prop where
  | missing : GivesAlphabet none none
  | null : GivesAlphabet (some .null) none
  | text (s : String) : GivesAlphabet (some (.string s)) (some (s.toList.map String.singleton))
  | list (symbols : List Symbol) :
      GivesAlphabet (some (.array (symbols.map Json.Value.string))) (some symbols)

/-- The marker that the value of a key describes: the character of a text, or the default if there
is no value. -/
inductive GivesMarker (default : Char) : Option Json.Value → Char → Prop where
  | missing : GivesMarker default none default
  | text (c : Char) : GivesMarker default (some (.string (String.singleton c))) c

/-- The value describes a dialect of these symbols and markers. -/
structure IsConfiguration (v : Json.Value) (alphabet : Option (List Symbol))
    (escape epsilon empty : Char) : Prop where
  exists_members : ∃ members, v = .object members ∧
    (∀ key ∈ members.map Prod.fst, key ∈ ["alphabet", "escape", "epsilon", "empty"]) ∧
    GivesAlphabet (members.lookup "alphabet") alphabet ∧
    GivesMarker '\\' (members.lookup "escape") escape ∧
    GivesMarker 'ε' (members.lookup "epsilon") epsilon ∧
    GivesMarker '∅' (members.lookup "empty") empty
  not_operators : ∀ c ∈ [escape, epsilon, empty], c ∉ ['|', '*', '(', ')']
  differ : escape ≠ epsilon ∧ escape ≠ empty ∧ epsilon ≠ empty

variable {v : Json.Value} {d : Dialect} {members : List (String × Json.Value)} {key : String}
  {alphabet : Option (List Symbol)} {c default : Char}

/-- A list of texts is read as its texts, and no other list is. -/
theorem mapM_string_eq_some_iff {items : List Json.Value} {symbols : List Symbol} :
    (items.mapM fun | .string s => some s | _ => none) = some symbols ↔
      items = symbols.map Json.Value.string := by
  induction items generalizing symbols with
  | nil => cases symbols <;> simp
  | cons item items ih =>
    rw [List.mapM_cons]
    cases item with
    | string s => cases symbols <;> simp [ih, Option.bind_eq_some_iff, and_comm]
    | _ => cases symbols <;> simp

theorem readAlphabet_member_iff : readAlphabet (member members key .null) = .ok alphabet ↔
    GivesAlphabet (members.lookup key) alphabet := by
  unfold member
  constructor
  · intro h
    cases hvalue : members.lookup key with
    | none =>
      rw [hvalue] at h
      cases h
      exact .missing
    | some value =>
      rw [hvalue, Option.getD_some] at h
      cases value with
      | null =>
        cases h
        exact .null
      | string s =>
        cases h
        exact .text s
      | array items =>
        simp only [readAlphabet] at h
        split at h
        · rename_i symbols hsymbols
          cases h
          rw [mapM_string_eq_some_iff.1 hsymbols]
          exact .list symbols
        · cases h
      | _ => cases h
  · intro h
    generalize members.lookup key = value at h
    cases h with
    | missing => rfl
    | null => rfl
    | text s => rfl
    | list symbols =>
      have hitems := mapM_string_eq_some_iff.2 (rfl : symbols.map Json.Value.string = _)
      simp only [Option.getD_some, readAlphabet]
      split
      · rename_i symbols' hsymbols
        cases hsymbols.symm.trans hitems
        rfl
      · rename_i hnone
        cases hnone.symm.trans hitems

theorem readMarker_member_iff :
    readMarker (member members key (.string (String.singleton default))) = .ok c ↔
      GivesMarker default (members.lookup key) c ∧ c ∉ operators := by
  rw [readMarker_eq_ok_iff, member]
  refine and_congr_left fun _ => ⟨fun h => ?_, fun h => ?_⟩
  · cases hvalue : members.lookup key with
    | none =>
      rw [hvalue, Option.getD_none, Json.Value.string.injEq, String.singleton_inj] at h
      exact h ▸ .missing
    | some value =>
      rw [hvalue, Option.getD_some] at h
      exact h ▸ .text c
  · generalize members.lookup key = value at h
    cases h with
    | missing => rfl
    | text => rfl

theorem ofJson_object_eq_ok_iff : ofJson (.object members) = .ok d ↔
    (∀ key ∈ members.map Prod.fst, key ∈ configKeys) ∧ ∃ alphabet,
      readAlphabet (member members "alphabet" .null) = .ok alphabet ∧
      make alphabet (member members "escape" (.string (String.singleton '\\')))
        (member members "epsilon" (.string (String.singleton 'ε')))
        (member members "empty" (.string (String.singleton '∅'))) = .ok d := by
  have hunknown : (members.map Prod.fst).filter (· ∉ configKeys) ≠ [] ↔
      ¬ ∀ key ∈ members.map Prod.fst, key ∈ configKeys := by
    rw [ne_eq, List.filter_eq_nil_iff]
    simp
  simp only [ofJson]
  split
  · rename_i h
    exact iff_of_false (fun hthrow => by cases hthrow) fun hok => hunknown.1 h hok.1
  · rename_i h
    rw [and_iff_right (Classical.not_not.1 (mt hunknown.2 h))]
    refine bind_eq_ok_iff.trans (exists_congr fun alphabet => and_congr_right fun _ => ?_)
    exact mapError_eq_ok_iff

/-- A value gives a dialect exactly if it is a configuration of the dialect's symbols and
markers. -/
theorem ofJson_eq_ok_iff : ofJson v = .ok d ↔ ∃ alphabet,
    IsConfiguration v alphabet d.escape d.epsilon d.empty ∧
      d.alphabet = alphabet.map Ascending.ofList := by
  constructor
  · intro h
    cases v with
    | object members =>
      obtain ⟨hkeys, alphabet, halphabet, hmake⟩ := ofJson_object_eq_ok_iff.1 h
      obtain ⟨hescape, hepsilon, hempty, hsymbols⟩ := make_eq_ok_iff.1 hmake
      obtain ⟨hescape, hescape'⟩ := readMarker_member_iff.1 hescape
      obtain ⟨hepsilon, hepsilon'⟩ := readMarker_member_iff.1 hepsilon
      obtain ⟨hempty, hempty'⟩ := readMarker_member_iff.1 hempty
      refine ⟨alphabet, ⟨⟨members, rfl, hkeys, readAlphabet_member_iff.1 halphabet, hescape,
        hepsilon, hempty⟩, fun c hc => ?_, d.markers_differ⟩, hsymbols⟩
      simp only [List.mem_cons, List.not_mem_nil, or_false] at hc
      rcases hc with rfl | rfl | rfl
      · exact hescape'
      · exact hepsilon'
      · exact hempty'
    | _ => cases h
  · rintro ⟨alphabet, ⟨⟨members, rfl, hkeys, halphabet, hescape, hepsilon, hempty⟩, hoperators, -⟩,
      hsymbols⟩
    have hescape' : d.escape ∉ operators := hoperators _ (by simp)
    have hepsilon' : d.epsilon ∉ operators := hoperators _ (by simp)
    have hempty' : d.empty ∉ operators := hoperators _ (by simp)
    exact ofJson_object_eq_ok_iff.2 ⟨hkeys, alphabet, readAlphabet_member_iff.2 halphabet,
      make_eq_ok_iff.2 ⟨readMarker_member_iff.2 ⟨hescape, hescape'⟩,
        readMarker_member_iff.2 ⟨hepsilon, hepsilon'⟩, readMarker_member_iff.2 ⟨hempty, hempty'⟩,
        hsymbols⟩⟩

/-- A file that holds the value describes the same dialect. -/
theorem load_eq_ok_iff {text : String} (h : Json.read text = .ok v) :
    load text = .ok d ↔ ofJson v = .ok d := by
  have hload : load text = (ofJson v).mapError .badConfig := by rw [load, h]
  rw [hload, mapError_eq_ok_iff]

/-- The special characters of a configuration are different. -/
theorem IsConfiguration.distinct {escape epsilon empty : Char}
    (h : IsConfiguration v alphabet escape epsilon empty) :
    (operators ++ [escape, epsilon, empty]).Nodup := by
  have hmarkers : [escape, epsilon, empty].Nodup := by simp [h.differ]
  exact List.nodup_append.2 ⟨by decide, hmarkers,
    fun c hc c' hc' he => h.not_operators c' hc' (he ▸ hc)⟩

/-! ## Alphabets that are replaced -/

/-- The dialect that the markers make up with another alphabet, the markers being looked at
again. -/
def remake (d : Dialect) (alphabet : Option (List Symbol)) : Except MarkerError Dialect :=
  make alphabet (.string (String.singleton d.escape)) (.string (String.singleton d.epsilon))
    (.string (String.singleton d.empty))

/-- Looking at the markers again never finds a fault. -/
theorem foldlM_remake (d : Dialect) (changes : List (Option (List Symbol))) :
    changes.foldlM remake d = .ok (changes.foldl withAlphabet d) := by
  induction changes generalizing d with
  | nil => rfl
  | cons alphabet changes ih =>
    rw [List.foldlM_cons, remake, make_markers]
    exact ih _

theorem foldl_withAlphabet_markers (d : Dialect) (changes : List (Option (List Symbol))) :
    (changes.foldl withAlphabet d).escape = d.escape ∧
      (changes.foldl withAlphabet d).epsilon = d.epsilon ∧
      (changes.foldl withAlphabet d).empty = d.empty := by
  induction changes generalizing d with
  | nil => exact ⟨rfl, rfl, rfl⟩
  | cons alphabet changes ih => exact ih (d.withAlphabet alphabet)

/-- Only the last alphabet counts. -/
theorem foldl_withAlphabet_alphabet (h : d.alphabet = alphabet.map Ascending.ofList)
    (changes : List (Option (List Symbol))) : (changes.foldl withAlphabet d).alphabet =
      (changes.getLastD alphabet).map Ascending.ofList := by
  induction changes generalizing d alphabet with
  | nil => exact h
  | cons last changes ih =>
    rw [List.foldl_cons, List.getLastD_cons]
    exact ih rfl

theorem allows_eq_true_iff (h : d.alphabet = alphabet.map Ascending.ofList) (a : Symbol) :
    d.allows a = true ↔ alphabet = none ∨ ∃ symbols, alphabet = some symbols ∧ a ∈ symbols := by
  rw [allows, h]
  cases alphabet <;> simp

theorem mem_reserved (d : Dialect) (c : Char) :
    c ∈ d.reserved ↔ c ∈ ['|', '*', '(', ')', d.escape, d.epsilon, d.empty] :=
  Ascending.mem_ofList

/-- The special characters are as many as are listed, since these are all different. -/
theorem length_reserved (d : Dialect) : d.reserved.length = 7 := by
  have hnodup : d.reserved.Nodup := (Ascending.ascending_ofList _).nodup
  have hperm : d.reserved.Perm (operators ++ [d.escape, d.epsilon, d.empty]) :=
    (List.perm_ext_iff_of_nodup hnodup d.distinct).2 d.mem_reserved
  exact hperm.length_eq

/-- Whether a JSON value gives a dialect, alone or in a file, is told by its keys and their values,
and so are the parts of the dialect. However often its alphabet is replaced then, which never fails,
the markers stay the same, the symbols of the last alphabet are allowed, and seven different
characters are special. -/
theorem ofJson_succeeds_iff (v : Json.Value) :
    (∀ text, Json.read text = .ok v → ∀ d, load text = .ok d ↔ ofJson v = .ok d) ∧
    ((∃ d, ofJson v = .ok d) ↔
      ∃ alphabet escape epsilon empty, IsConfiguration v alphabet escape epsilon empty) ∧
    ∀ d, ofJson v = .ok d → ∃ alphabet, IsConfiguration v alphabet d.escape d.epsilon d.empty ∧
      d.alphabet = alphabet.map Ascending.ofList ∧
      ∀ changes : List (Option (List Symbol)), ∃ d', changes.foldlM remake d = .ok d' ∧
        d' = changes.foldl withAlphabet d ∧
        (d'.escape = d.escape ∧ d'.epsilon = d.epsilon ∧ d'.empty = d.empty) ∧
        (∀ a, d'.allows a = true ↔ changes.getLastD alphabet = none ∨
          ∃ symbols, changes.getLastD alphabet = some symbols ∧ a ∈ symbols) ∧
        d'.reserved.length = 7 ∧ d'.reserved.Nodup ∧
        ∀ c, c ∈ d'.reserved ↔ c ∈ ['|', '*', '(', ')', d.escape, d.epsilon, d.empty] := by
  refine ⟨fun text htext d => load_eq_ok_iff htext, ?_, ?_⟩
  · constructor
    · rintro ⟨d, hd⟩
      obtain ⟨alphabet, h, -⟩ := ofJson_eq_ok_iff.1 hd
      exact ⟨alphabet, d.escape, d.epsilon, d.empty, h⟩
    · rintro ⟨alphabet, escape, epsilon, empty, h⟩
      exact ⟨⟨alphabet.map Ascending.ofList, escape, epsilon, empty, h.distinct⟩,
        ofJson_eq_ok_iff.2 ⟨alphabet, h, rfl⟩⟩
  · intro d hd
    obtain ⟨alphabet, h, halphabet⟩ := ofJson_eq_ok_iff.1 hd
    refine ⟨alphabet, h, halphabet, fun changes => ?_⟩
    have hmarkers := foldl_withAlphabet_markers d changes
    have hlast := foldl_withAlphabet_alphabet halphabet changes
    refine ⟨_, foldlM_remake d changes, rfl, hmarkers, allows_eq_true_iff hlast,
      length_reserved _, (Ascending.ascending_ofList _).nodup, fun c => ?_⟩
    rw [mem_reserved, hmarkers.1, hmarkers.2.1, hmarkers.2.2]

/-- A marker and the symbols are given, and two markers are left to their defaults. -/
def partialValue : Json.Value :=
  .object [("empty", .string "#"), ("alphabet", .array [.string "b", .string "a"])]

theorem ofJson_succeeds_iff_partial :
    IsConfiguration partialValue (some ["b", "a"]) '\\' 'ε' '#' ∧
    ∃ d, ofJson partialValue = .ok d ∧
      ((List.foldl withAlphabet d [none, some ["x"]]).allows "x" = true) ∧
      (List.foldl withAlphabet d [none, some ["x"]]).reserved.length = 7 := by
  have h : IsConfiguration partialValue (some ["b", "a"]) '\\' 'ε' '#' :=
    ⟨⟨_, rfl, by decide, .list ["b", "a"], .missing, .missing, .text '#'⟩, by simp, by simp⟩
  obtain ⟨-, hsucceeds, hdialects⟩ := ofJson_succeeds_iff partialValue
  obtain ⟨d, hd⟩ := hsucceeds.2 ⟨_, _, _, _, h⟩
  obtain ⟨alphabet, -, -, hchanges⟩ := hdialects d hd
  obtain ⟨d', -, rfl, -, hallows, hlength, -⟩ := hchanges [none, some ["x"]]
  exact ⟨h, d, hd, (hallows "x").2 (.inr ⟨["x"], rfl, by decide⟩), hlength⟩

/-- A marker that is given may be the default of another. -/
example : (ofJson (.object [("empty", .string "ε")])).isOk = false := by decide +kernel

end Dialect

end RegularLanguage
