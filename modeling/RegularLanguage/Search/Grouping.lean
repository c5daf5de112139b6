import Std.Data.TreeMap
/-!
# Values grouped by keys

A list of pairs, arranged so that the values of a key are found without walking through the list.
The values of a key keep their order (`Grouping.values_ofPairs`).

| here | `relang` |
| --- | --- |
| `Grouping.ofPairs` | the `setdefault` of `productive_states` and `grammar_to_text`; look-ups in `transitions` by state |
-/

namespace RegularLanguage

open Std

/-- Values collected under keys. -/
abbrev Grouping (κ ν : Type) [Ord κ] := TreeMap κ (List ν) compare

namespace Grouping

variable {κ ν : Type} [Ord κ]

/-- Collects the values of each key. -/
def ofPairs (pairs : List (κ × ν)) : Grouping κ ν :=
  pairs.foldr (fun p g => g.alter p.1 fun vs => some (p.2 :: vs.getD [])) ∅

/-- The values of a key; none if it has not been mentioned. -/
def values (g : Grouping κ ν) (k : κ) : List ν := g[k]?.getD []

variable [TransOrd κ] [LawfulEqOrd κ] [DecidableEq κ]

theorem values_ofPairs (pairs : List (κ × ν)) (k : κ) :
    (ofPairs pairs).values k = pairs.filterMap fun p => if p.1 = k then some p.2 else none := by
  induction pairs with
  | nil => simp [ofPairs, values]
  | cons p pairs ih =>
    have h : ofPairs (p :: pairs) =
        (ofPairs pairs).alter p.1 fun vs => some (p.2 :: vs.getD []) := rfl
    rw [h, values, TreeMap.getElem?_alter, List.filterMap_cons]
    by_cases hk : p.1 = k
    · subst hk
      rw [← ih]
      simp [values]
    · rw [if_neg (by simpa using hk), if_neg hk, ← ih, values]

theorem mem_values_ofPairs {pairs : List (κ × ν)} {k : κ} {v : ν} :
    v ∈ (ofPairs pairs).values k ↔ (k, v) ∈ pairs := by
  rw [values_ofPairs, List.mem_filterMap]
  constructor
  · rintro ⟨p, hp, h⟩
    split at h
    · rename_i hk
      cases h
      exact hk ▸ hp
    · cases h
  · exact fun h => ⟨_, h, by simp⟩

end Grouping

end RegularLanguage
