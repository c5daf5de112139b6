import Mathlib.Data.List.Induction
import RegularLanguage.Matrix.Automaton
import RegularLanguage.Proofs.Automaton.Basic
import RegularLanguage.Proofs.Matrix.Boolean
import RegularLanguage.Proofs.Search.Grouping
/-!
# Runs of matrix automata

A word leads from the start indices to those that moves under its symbols lead to
(`MatrixAutomaton.reaches_concat`). The search through all matrices at once finds the indices to
which some word leads, so it tells whether any word is accepted (`IsProper.isEmpty_iff`).
-/

namespace RegularLanguage

/-! ## Masks -/

namespace Mask

variable {m a b : Mask} {i j : Nat}

theorem lt_size_of_flag (h : m.flag i = true) : i < m.size := by
  rw [flag] at h
  by_contra hi
  rw [Array.getElem?_eq_none (Nat.le_of_not_lt hi)] at h
  cases h

@[simp]
theorem mem_indices : i ∈ m.indices ↔ m.flag i = true := by
  rw [indices, List.mem_filter, List.mem_range]
  exact and_iff_right_of_imp lt_size_of_flag

theorem flag_map_toArray {α : Type} {f : α → Bool} {xs : List α} :
    flag (xs.map f).toArray i = true ↔ ∃ x, xs[i]? = some x ∧ f x = true := by
  rw [flag, List.getElem?_toArray, List.getElem?_map]
  cases xs[i]? <;> simp

variable {f : Bool → Bool → Bool}

theorem size_outer : (outer f a b).size = a.size * b.size := by
  rw [outer, List.size_toArray, length_flatMap_map]
  rfl

theorem flag_outer (hi : i < a.size) (hj : j < b.size) :
    (outer f a b).flag (i * b.size + j) = f (a.flag i) (b.flag j) := by
  have hflags : (a.toList.flatMap fun x => b.toList.map (f x))[i * b.size + j]? =
      a.toList[i]?.bind fun x => b.toList[j]?.map (f x) := getElem?_flatMap_map hj
  rw [flag, outer, List.getElem?_toArray, hflags, List.getElem?_eq_getElem hi,
    List.getElem?_eq_getElem hj]
  simp [flag, hi, hj]

end Mask

namespace MatrixAutomaton

variable {m : MatrixAutomaton} {i j : Nat} {a : Symbol} {w : Word}

/-- The masks and the matrices have one size, and each symbol has one matrix. -/
structure IsProper (m : MatrixAutomaton) : Prop where
  final_size : m.final.size = m.size
  square : ∀ x ∈ m.matrices, x.2.IsSquare m.size
  distinct : m.matrices.Pairwise fun x y => x.1 ≠ y.1

def Knows (m : MatrixAutomaton) (a : Symbol) : Prop := ∃ matrix, (a, matrix) ∈ m.matrices

def Moves (m : MatrixAutomaton) (a : Symbol) (i j : Nat) : Prop :=
  ∃ matrix, m.matrices.lookup a = some matrix ∧ j ∈ matrix.row i

def Reaches (m : MatrixAutomaton) (w : Word) (i : Nat) : Prop :=
  ∃ front, m.run w = some front ∧ i ∈ front

theorem run_concat : m.run (w ++ [a]) = (m.run w).bind fun front => m.advance front a := by
  rw [run, List.foldlM_append]
  exact congrArg _ (funext fun front => Option.bind_fun_some _)

@[simp]
theorem reaches_nil : m.Reaches [] i ↔ m.start.flag i = true := by
  rw [← Mask.mem_indices]
  constructor
  · rintro ⟨front, hfront, hi⟩
    obtain rfl := Option.some.inj hfront
    exact hi
  · exact fun hi => ⟨_, rfl, hi⟩

theorem reaches_concat : m.Reaches (w ++ [a]) j ↔ ∃ i, m.Reaches w i ∧ m.Moves a i j := by
  simp only [Reaches, Moves, run_concat, advance, Option.bind_eq_some_iff,
    Option.map_eq_some_iff]
  constructor
  · rintro ⟨-, ⟨front, hfront, matrix, hmatrix, rfl⟩, hj⟩
    obtain ⟨i, hi, hij⟩ := BoolMatrix.mem_image.1 hj
    exact ⟨i, ⟨front, hfront, hi⟩, matrix, hmatrix, hij⟩
  · rintro ⟨i, ⟨front, hfront, hi⟩, matrix, hmatrix, hij⟩
    exact ⟨_, ⟨front, hfront, matrix, hmatrix, rfl⟩, BoolMatrix.mem_image.2 ⟨i, hi, hij⟩⟩

theorem accepts_iff_reaches :
    m.accepts w = true ↔ ∃ i, m.Reaches w i ∧ m.final.flag i = true := by
  rw [accepts]
  simp only [Reaches, Option.any_eq_true, List.any_eq_true]
  constructor
  · rintro ⟨front, hfront, i, hi, hfinal⟩
    exact ⟨i, ⟨front, hfront, hi⟩, hfinal⟩
  · rintro ⟨i, ⟨front, hfront, hi⟩, hfinal⟩
    exact ⟨front, hfront, i, hi, hfinal⟩

/-! ## The search -/

section

variable (h : m.IsProper)

include h

theorem IsProper.lookup_iff {matrix : BoolMatrix} :
    m.matrices.lookup a = some matrix ↔ (a, matrix) ∈ m.matrices :=
  lookup_eq_some_iff_mem h.distinct

/-- A run goes on as long as there are matrices for the symbols. -/
theorem IsProper.exists_run_iff : (∃ front, m.run w = some front) ↔ ∀ a ∈ w, m.Knows a := by
  induction w using List.reverseRecOn with
  | nil => exact iff_of_true ⟨_, rfl⟩ (by simp)
  | append_singleton w a ih =>
    rw [List.forall_mem_append, List.forall_mem_singleton, ← ih]
    simp only [run_concat, Option.bind_eq_some_iff, advance, Option.map_eq_some_iff, h.lookup_iff,
      Knows]
    constructor
    · rintro ⟨-, front, hfront, matrix, hmatrix, -⟩
      exact ⟨⟨front, hfront⟩, matrix, hmatrix⟩
    · rintro ⟨⟨front, hfront⟩, matrix, hmatrix⟩
      exact ⟨_, front, hfront, matrix, hmatrix, rfl⟩

theorem IsProper.lt_size_of_moves (hm : m.Moves a i j) : j < m.size := by
  obtain ⟨matrix, hmatrix, hj⟩ := hm
  exact (h.square _ (h.lookup_iff.1 hmatrix)).lt_of_mem_row i j hj

theorem IsProper.lt_size_of_reaches (hw : m.Reaches w i) : i < m.size := by
  induction w using List.reverseRecOn with
  | nil => exact Mask.lt_size_of_flag (reaches_nil.1 hw)
  | append_singleton w a _ =>
    obtain ⟨_, -, hm⟩ := reaches_concat.1 hw
    exact h.lt_size_of_moves hm

theorem IsProper.mem_successors : j ∈ m.successors i ↔ ∃ a, m.Moves a i j := by
  simp only [successors, List.mem_flatMap, Moves, h.lookup_iff, Prod.exists]

theorem IsProper.mem_range_of_mem_successors :
    ∀ i, ∀ j ∈ m.successors i, j ∈ List.range m.size := by
  intro i j hj
  obtain ⟨a, hm⟩ := h.mem_successors.1 hj
  exact List.mem_range.2 (h.lt_size_of_moves hm)

theorem IsProper.mem_reachable : i ∈ m.reachable ↔ ∃ w, m.Reaches w i := by
  rw [reachable, mem_reach h.mem_range_of_mem_successors (Nat.le_of_eq List.length_range)]
  constructor
  · rintro ⟨s, hs, hsi⟩
    have hword : ∃ w, m.Reaches w s := ⟨[], reaches_nil.2 (Mask.mem_indices.1 hs)⟩
    clear hs
    induction hsi with
    | refl => exact hword
    | step hj _ ih =>
      obtain ⟨w, hw⟩ := hword
      obtain ⟨a, hm⟩ := h.mem_successors.1 hj
      exact ih ⟨w ++ [a], reaches_concat.2 ⟨_, hw, hm⟩⟩
  · rintro ⟨w, hw⟩
    induction w using List.reverseRecOn generalizing i with
    | nil => exact ⟨i, Mask.mem_indices.2 (reaches_nil.1 hw), .refl i⟩
    | append_singleton w a ih =>
      obtain ⟨j, hj, hm⟩ := reaches_concat.1 hw
      obtain ⟨s, hs, hsj⟩ := ih hj
      exact ⟨s, hs, hsj.trans (.step (h.mem_successors.2 ⟨a, hm⟩) (.refl i))⟩

/-- Some word is accepted exactly when the search finds a final index. -/
theorem IsProper.isEmpty_iff : m.isEmpty = true ↔ ∀ w, m.accepts w = false := by
  rw [isEmpty, Bool.not_eq_true', List.any_eq_false]
  simp only [h.mem_reachable, ← Bool.not_eq_true, accepts_iff_reaches]
  constructor
  · rintro hfinal w ⟨i, hw, hi⟩
    exact hfinal i ⟨w, hw⟩ hi
  · rintro hnone i ⟨w, hw⟩ hi
    exact hnone w ⟨i, hw, hi⟩

end

end MatrixAutomaton

end RegularLanguage
