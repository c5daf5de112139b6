import RegularLanguage.Proofs.Matrix.OfNFA
import RegularLanguage.Proofs.Matrix.Product
/-!
# Rounds of the search for reachable indices

A round of the search moves the front through all matrices at once, so it adds one symbol to the
words by which indices are reached. After `k` rounds the front holds the indices whose shortest
words have length `k` (`MatrixAutomaton.IsProper.mem_front_iff`). The rounds come to an end, and by
then the indices of all words are found, so a final index is among them if any word is accepted
(`MatrixAutomaton.reachable_terminates_and_isEmpty_iff`).

| here | `relang` |
| --- | --- |
| `searched` | `visited` and `front` of `reachable` |
-/

namespace RegularLanguage.MatrixAutomaton

variable {m : MatrixAutomaton} {i k : Nat} {w : Word}

/-- The indices that are visited after some rounds, and those that are new in the last of them. -/
def searched (m : MatrixAutomaton) (k : Nat) : Visit Nat :=
  RegularLanguage.searched m.successors m.start.indices k

/-- Masks of the same size may be put in place of others. -/
theorem IsProper.withMasks (h : m.IsProper) {start final : Mask} (hstart : start.size = m.size)
    (hfinal : final.size = m.size) : IsProper ⟨m.matrices, start, final⟩ where
  final_size := hfinal.trans hstart.symm
  square x hx := by
    show x.2.IsSquare start.size
    rw [hstart]
    exact h.square x hx
  distinct := h.distinct

section

variable (h : m.IsProper)

include h

/-- The visited indices are reached by words with at most one symbol for each round. -/
theorem IsProper.mem_searched_iff :
    i ∈ (m.searched k).1 ↔ ∃ w, w.length ≤ k ∧ m.Reaches w i := by
  induction k generalizing i with
  | zero =>
    rw [searched, mem_searched_zero, Mask.mem_indices, ← reaches_nil]
    constructor
    · intro hi
      exact ⟨[], Nat.le_refl 0, hi⟩
    · rintro ⟨w, hw, hi⟩
      rwa [List.eq_nil_of_length_eq_zero (Nat.le_zero.1 hw)] at hi
  | succ k ih =>
    have hround : i ∈ (m.searched (k + 1)).1 ↔
        i ∈ (m.searched k).1 ∨ ∃ j ∈ (m.searched k).1, i ∈ m.successors j := mem_searched_succ
    simp only [hround, ih, h.mem_successors]
    constructor
    · rintro (⟨w, hw, hi⟩ | ⟨j, ⟨w, hw, hj⟩, a, hm⟩)
      · exact ⟨w, Nat.le_succ_of_le hw, hi⟩
      · exact ⟨w ++ [a], by simpa using hw, reaches_concat.2 ⟨j, hj, hm⟩⟩
    · rintro ⟨w, hw, hi⟩
      cases w using List.reverseRecOn with
      | nil => exact .inl ⟨[], Nat.zero_le k, hi⟩
      | append_singleton w a =>
        obtain ⟨j, hj, hm⟩ := reaches_concat.1 hi
        exact .inr ⟨j, ⟨w, by simpa using hw, hj⟩, a, hm⟩

/-- The front holds the indices that no shorter word reaches. -/
theorem IsProper.mem_front_iff : i ∈ (m.searched k).2 ↔
    (∃ w, w.length = k ∧ m.Reaches w i) ∧ ∀ w, m.Reaches w i → k ≤ w.length := by
  cases k with
  | zero =>
    show i ∈ m.start.indices ↔ _
    rw [Mask.mem_indices, ← reaches_nil]
    simp
  | succ k =>
    have hfront : i ∈ (m.searched (k + 1)).2 ↔
        i ∈ (m.searched (k + 1)).1 ∧ i ∉ (m.searched k).1 := mem_front_succ
    rw [hfront, h.mem_searched_iff, h.mem_searched_iff]
    constructor
    · rintro ⟨⟨w, hw, hi⟩, hnew⟩
      have hlong : ∀ u, m.Reaches u i → k + 1 ≤ u.length := by
        intro u hu
        by_contra hshort
        exact hnew ⟨u, by omega, hu⟩
      exact ⟨⟨w, Nat.le_antisymm hw (hlong w hi), hi⟩, hlong⟩
    · rintro ⟨⟨w, hw, hi⟩, hlong⟩
      refine ⟨⟨w, by omega, hi⟩, ?_⟩
      rintro ⟨u, hu, hui⟩
      have := hlong u hui
      omega

/-- The search ends, with the front empty for the first time. -/
theorem IsProper.exists_front_eq_nil : ∃ k ≤ m.size, (m.searched k).2 = [] ∧
    (∀ j < k, (m.searched j).2 ≠ []) ∧ m.reachable = (m.searched k).1.toList := by
  have hsources : ∀ i ∈ m.start.indices, i ∈ List.range m.size := by
    intro i hi
    exact List.mem_range.2 (Mask.lt_size_of_flag (Mask.mem_indices.1 hi))
  have hbound : (List.range m.size).length ≤ m.size := Nat.le_of_eq List.length_range
  obtain ⟨k, hk, hend⟩ :=
    RegularLanguage.exists_front_eq_nil h.mem_range_of_mem_successors hsources hbound
  exact ⟨k, Nat.le_trans hk hbound, hend⟩

end

/-- Round by round the search finds the indices by the lengths of their shortest words. It ends as
soon as the front is empty, after as many rounds as there are indices at the latest, with exactly
the indices to which some word leads. So it finds no final index exactly if no word is accepted. -/
theorem reachable_terminates_and_isEmpty_iff (m : MatrixAutomaton) (h : m.IsProper) :
    (∀ k i, i ∈ (m.searched k).2 ↔
      (∃ w, w.length = k ∧ m.Reaches w i) ∧ ∀ w, m.Reaches w i → k ≤ w.length) ∧
      (∃ k ≤ m.size, (m.searched k).2 = [] ∧ (∀ j < k, (m.searched j).2 ≠ []) ∧
        m.reachable = (m.searched k).1.toList) ∧
      (∀ i, i ∈ m.reachable ↔ ∃ w, m.Reaches w i) ∧
      (m.isEmpty = true ↔ ∀ w, m.accepts w = false) :=
  ⟨fun _ _ => h.mem_front_iff, h.exists_front_eq_nil, fun _ => h.mem_reachable, h.isEmpty_iff⟩

/-- A ring of three states. -/
def ring : NFA :=
  .ofParts [0, 1, 2] 0 [] [⟨0, some "a", 1⟩, ⟨1, some "a", 2⟩, ⟨2, some "a", 0⟩] []

/-- A way from one state to another, which is not left again. -/
def way : NFA := .ofParts [0, 1] 0 [] [⟨0, some "a", 1⟩, ⟨1, some "a", 1⟩] []

/-- The ring and the way side by side, with two pairs to start from and one final pair. -/
def ringAndWay : MatrixAutomaton where
  matrices := (product or (ofNFA ring) (ofNFA way)).matrices
  start := #[true, false, false, false, true, false]
  final := #[false, false, true, false, false, false]

theorem ringAndWay_isProper : ringAndWay.IsProper := by
  have hring : ring.IsValid := NFA.ofParts_isValid (by decide) (by decide) (by decide)
  have hway : way.IsValid := NFA.ofParts_isValid (by decide) (by decide) (by decide)
  exact (product_isProper (ofNFA_isProper hring) (ofNFA_isProper hway)).withMasks
    (by decide +kernel) (by decide +kernel)

/-- Three rounds find all indices but the final one, so no word is accepted. -/
theorem reachable_terminates_and_isEmpty_iff_ringAndWay : ringAndWay.IsProper ∧
    (ringAndWay.searched 2).2 ≠ [] ∧ (ringAndWay.searched 3).2 = [] ∧
    (∃ w, ringAndWay.Reaches w 5) ∧ (¬ ∃ w, ringAndWay.Reaches w 2) ∧
    ∀ w, ringAndWay.accepts w = false := by
  obtain ⟨-, -, hreachable, hempty⟩ :=
    reachable_terminates_and_isEmpty_iff ringAndWay ringAndWay_isProper
  have hfound : ringAndWay.reachable = [0, 1, 3, 4, 5] := by decide +kernel
  refine ⟨ringAndWay_isProper, by decide +kernel, by decide +kernel, (hreachable 5).1 ?_, ?_,
    hempty.1 ?_⟩
  · rw [hfound]
    decide
  · rw [← hreachable 2, hfound]
    decide
  · rw [isEmpty, hfound]
    decide +kernel

end RegularLanguage.MatrixAutomaton
