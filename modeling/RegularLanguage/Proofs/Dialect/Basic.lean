import RegularLanguage.Dialect.Basic
/-!
# The markers of dialects

A dialect is made exactly of three characters that are different from each other and from the
operators (`make_eq_ok_iff`). So its markers make up a dialect again, with any alphabet.
-/

namespace RegularLanguage

/-- A computation succeeds when both its parts do. -/
@[simp]
theorem bind_eq_ok_iff {ε α β : Type} {x : Except ε α} {f : α → Except ε β} {b : β} :
    x.bind f = .ok b ↔ ∃ a, x = .ok a ∧ f a = .ok b := by
  cases x <;> simp [Except.bind]

/-- A computation fails when its first part does or when the second part fails on what the first
one gives. -/
@[simp]
theorem bind_eq_error_iff {ε α β : Type} {x : Except ε α} {f : α → Except ε β} {e : ε} :
    x.bind f = .error e ↔ x = .error e ∨ ∃ a, x = .ok a ∧ f a = .error e := by
  cases x <;> simp [Except.bind]

/-- What is made of an error does not matter to success. -/
theorem mapError_eq_ok_iff {ε ε' α : Type} {x : Except ε α} {f : ε → ε'} {a : α} :
    x.mapError f = .ok a ↔ x = .ok a := by
  constructor
  · intro h
    cases x <;> cases h
    rfl
  · rintro rfl
    rfl

namespace Dialect

variable (d : Dialect) {c : Char} {v escape epsilon empty : Json.Value}
  {alphabet : Option (List Symbol)}

theorem markers_not_operators :
    d.escape ∉ operators ∧ d.epsilon ∉ operators ∧ d.empty ∉ operators := by
  have h := (List.nodup_append.1 d.distinct).2.2
  exact ⟨fun hm => h _ hm _ (by simp) rfl, fun hm => h _ hm _ (by simp) rfl,
    fun hm => h _ hm _ (by simp) rfl⟩

theorem markers_differ :
    d.escape ≠ d.epsilon ∧ d.escape ≠ d.empty ∧ d.epsilon ≠ d.empty := by
  simpa [and_assoc] using (List.nodup_append.1 d.distinct).2.1

/-- A marker is read from a text of one character, and from nothing else. -/
theorem readMarker_eq_ok_iff :
    readMarker v = .ok c ↔ v = .string (String.singleton c) ∧ c ∉ operators := by
  have hsingle : ∀ {s : String} {c : Char}, s.toList = [c] ↔ s = String.singleton c := by
    intro s c
    rw [← String.toList_inj, String.toList_singleton]
  constructor
  · intro h
    cases v with
    | string s =>
      simp only [readMarker] at h
      split at h
      · rename_i c' hs
        split at h
        · cases h
        · rename_i hc
          cases h
          exact ⟨congrArg _ (hsingle.1 hs), hc⟩
      · cases h
    | _ => cases h
  · rintro ⟨rfl, hc⟩
    simp [readMarker, hc]

variable {d} in
/-- A dialect has the markers that it is made of, and the symbols of the alphabet. -/
theorem make_eq_ok_iff : make alphabet escape epsilon empty = .ok d ↔
    readMarker escape = .ok d.escape ∧ readMarker epsilon = .ok d.epsilon ∧
      readMarker empty = .ok d.empty ∧ d.alphabet = alphabet.map Ascending.ofList := by
  constructor
  · intro h
    obtain ⟨escape', hescape, h⟩ := bind_eq_ok_iff.1 h
    obtain ⟨epsilon', hepsilon, h⟩ := bind_eq_ok_iff.1 h
    obtain ⟨empty', hempty, h⟩ := bind_eq_ok_iff.1 h
    split at h
    · cases h
      exact ⟨hescape, hepsilon, hempty, rfl⟩
    · cases h
  · rintro ⟨hescape, hepsilon, hempty, halphabet⟩
    rw [make, hescape, hepsilon, hempty]
    refine (dif_pos d.distinct).trans ?_
    rw [← halphabet]
    rfl

/-- The markers of a dialect make up a dialect with any alphabet. -/
theorem make_markers (alphabet : Option (List Symbol)) : make alphabet
    (.string (String.singleton d.escape)) (.string (String.singleton d.epsilon))
    (.string (String.singleton d.empty)) = .ok (d.withAlphabet alphabet) := by
  obtain ⟨hescape, hepsilon, hempty⟩ := d.markers_not_operators
  exact make_eq_ok_iff.2 ⟨readMarker_eq_ok_iff.2 ⟨rfl, hescape⟩,
    readMarker_eq_ok_iff.2 ⟨rfl, hepsilon⟩, readMarker_eq_ok_iff.2 ⟨rfl, hempty⟩, rfl⟩

end Dialect

end RegularLanguage
