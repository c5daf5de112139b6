import RegularLanguage.Search.Numbering
/-!
# Numberings are one-to-one

The numbers of a numbering are those below its size, each of one key (`Numbering.IsProper`). Asking
for the number of a key leaves the numbers of all other keys as they are.
-/

namespace RegularLanguage

open Std

namespace Numbering

variable {κ : Type} [Ord κ] {n : Numbering κ} {k k' : κ} {i j : Nat}

/-- A key and its number determine each other. -/
def IsProper (n : Numbering κ) : Prop := ∀ k i, n.number? k = some i ↔ n.key? i = some k

theorem lt_size_of_key? (h : n.key? i = some k) : i < n.size :=
  (Array.getElem?_eq_some_iff.1 h).1

theorem exists_key?_of_lt_size (h : i < n.size) : ∃ k, n.key? i = some k :=
  ⟨n.keys[i], Array.getElem?_eq_getElem h⟩

def add (n : Numbering κ) (k : κ) : Numbering κ := ⟨n.keys.push k, n.numbers.insert k n.size⟩

theorem intern_of_some (h : n.number? k = some i) : n.intern k = (i, n) := by
  rw [intern, h]

theorem intern_of_none (h : n.number? k = none) : n.intern k = (n.size, n.add k) := by
  rw [intern, h]
  rfl

@[simp]
theorem size_add : (n.add k).size = n.size + 1 := by simp [size, add]

@[simp]
theorem key?_add_size : (n.add k).key? n.size = some k := by simp [key?, add, size]

theorem key?_add_of_ne (h : i ≠ n.size) : (n.add k).key? i = n.key? i := by
  rw [key?, add, Array.getElem?_push]
  exact if_neg h

theorem key?_add_of_some (h : n.key? i = some k') : (n.add k).key? i = some k' := by
  rw [key?_add_of_ne (Nat.ne_of_lt (lt_size_of_key? h)), h]

/-- A key that is asked for is known, or it is added. -/
theorem IsProper.intern_cases (h : n.IsProper) (k : κ) :
    (∃ j, n.key? j = some k ∧ n.intern k = (j, n)) ∨
      (n.number? k = none ∧ n.intern k = (n.size, n.add k)) := by
  cases hk : n.number? k with
  | some j => exact .inl ⟨j, (h k j).1 hk, intern_of_some hk⟩
  | none => exact .inr ⟨rfl, intern_of_none hk⟩

theorem IsProper.nodup_keys (h : n.IsProper) : n.keys.toList.Nodup := by
  refine List.pairwise_iff_getElem.2 fun i j hi hj hij he => ?_
  have hki : n.key? i = some n.keys.toList[i] := by simp [key?]
  have hkj : n.key? j = some n.keys.toList[j] := by simp [key?]
  rw [← he] at hkj
  have := Option.some.inj (((h _ i).2 hki).symm.trans ((h _ j).2 hkj))
  omega

variable [TransOrd κ]

theorem isProper_empty : IsProper ({} : Numbering κ) := by
  simp [IsProper, number?, key?]

variable [LawfulEqOrd κ]

@[simp]
theorem number?_add_self : (n.add k).number? k = some n.size := by simp [number?, add]

theorem number?_add_of_ne (h : k' ≠ k) : (n.add k).number? k' = n.number? k' := by
  rw [number?, add, TreeMap.getElem?_insert, if_neg, number?]
  exact fun he => h (LawfulEqOrd.compare_eq_iff_eq.1 he).symm

theorem IsProper.add (h : n.IsProper) (hk : n.number? k = none) : (n.add k).IsProper := by
  intro k' i
  have hfree : ∀ k', n.number? k' ≠ some n.size :=
    fun k' he => Nat.lt_irrefl _ (lt_size_of_key? ((h _ _).1 he))
  by_cases hk' : k' = k
  · subst hk'
    rw [number?_add_self]
    by_cases hi : i = n.size
    · simp [hi]
    · rw [key?_add_of_ne hi, ← h, hk]
      simpa using Ne.symm hi
  · rw [number?_add_of_ne hk']
    by_cases hi : i = n.size
    · subst hi
      simpa [hfree] using Ne.symm hk'
    · rw [key?_add_of_ne hi, h]

theorem IsProper.intern (h : n.IsProper) (k : κ) :
    (n.intern k).2.IsProper ∧ n.size ≤ (n.intern k).2.size := by
  rcases h.intern_cases k with ⟨j, -, heq⟩ | ⟨hnew, heq⟩ <;> rw [heq]
  · exact ⟨h, Nat.le_refl _⟩
  · exact ⟨h.add hnew, by simp⟩

end Numbering

end RegularLanguage
