import Std.Data.TreeSet
/-!
# Finite sets as ascending lists

A finite set is kept as the list of its members in ascending order, each once. So two such lists
are equal exactly when they have the same members (`Ascending.ext`).

The states, symbols and transitions of an automaton are kept so, which is also how `get_states`,
`get_alphabet` and `get_transitions` show them.
-/

namespace RegularLanguage

open Std

/-- The members are in ascending order, each once. -/
def Ascending {α : Type} [Ord α] (xs : List α) : Prop :=
  xs.Pairwise fun a b => compare a b = .lt

namespace Ascending

variable {α : Type} [Ord α]

/-- Whether a list is in ascending order already, each member once. -/
def isAscending : List α → Bool
  | a :: b :: xs => compare a b == .lt && isAscending (b :: xs)
  | _ => true

/-- The members of a list in ascending order, each once. -/
def ofList (xs : List α) : List α :=
  if isAscending xs then xs else (TreeSet.ofList xs compare).toList

def meets (xs ys : List α) : Bool :=
  let members := TreeSet.ofList ys compare
  xs.any members.contains

theorem ascending_of_isAscending [TransOrd α] :
    ∀ {xs : List α}, isAscending xs = true → Ascending xs
  | [], _ => List.Pairwise.nil
  | [_], _ => List.pairwise_singleton _ _
  | a :: b :: xs, h => by
    simp only [isAscending, Bool.and_eq_true, beq_iff_eq] at h
    have hb := ascending_of_isAscending h.2
    refine List.pairwise_cons.2 ⟨fun c hc => ?_, hb⟩
    rcases List.mem_cons.1 hc with rfl | hc
    · exact h.1
    · exact TransCmp.lt_trans h.1 ((List.pairwise_cons.1 hb).1 c hc)

theorem ascending_ofList [TransOrd α] (xs : List α) : Ascending (ofList xs) := by
  unfold ofList
  split
  · rename_i h
    exact ascending_of_isAscending h
  · exact TreeSet.ordered_toList

variable [TransOrd α] [LawfulEqOrd α]

@[simp]
theorem mem_ofList {xs : List α} {a : α} : a ∈ ofList xs ↔ a ∈ xs := by
  classical
  unfold ofList
  split
  · exact Iff.rfl
  · simp [TreeSet.mem_ofList]

@[simp]
theorem meets_eq_true_iff {xs ys : List α} : meets xs ys = true ↔ ∃ a ∈ xs, a ∈ ys := by
  classical
  simp [meets, TreeSet.contains_ofList]

/-- Ascending lists with the same members are equal. -/
theorem ext {xs ys : List α} (hx : Ascending xs) (hy : Ascending ys) (h : ∀ a, a ∈ xs ↔ a ∈ ys) :
    xs = ys := by
  induction xs generalizing ys with
  | nil =>
    cases ys with
    | nil => rfl
    | cons b ys => exact absurd ((h b).2 (by simp)) (by simp)
  | cons a xs ih =>
    cases ys with
    | nil => exact absurd ((h a).1 (by simp)) (by simp)
    | cons b ys =>
      have ha := List.pairwise_cons.1 hx
      have hb := List.pairwise_cons.1 hy
      have hab : a = b := by
        rcases List.mem_cons.1 ((h a).1 (by simp)) with e | hay
        · exact e
        · rcases List.mem_cons.1 ((h b).2 (by simp)) with e | hbx
          · exact e.symm
          · have h1 := ha.1 b hbx
            have h2 := hb.1 a hay
            have h3 := OrientedCmp.gt_of_lt h1
            rw [h2] at h3
            cases h3
      subst hab
      congr 1
      refine ih ha.2 hb.2 fun c => ?_
      constructor
      · intro hc
        rcases List.mem_cons.1 ((h c).1 (List.mem_cons_of_mem _ hc)) with e | hc'
        · subst e
          exact absurd (ha.1 c hc) (by simp [ReflCmp.compare_self])
        · exact hc'
      · intro hc
        rcases List.mem_cons.1 ((h c).2 (List.mem_cons_of_mem _ hc)) with e | hc'
        · subst e
          exact absurd (hb.1 c hc) (by simp [ReflCmp.compare_self])
        · exact hc'

/-- A list that is ascending already is not changed. -/
theorem ofList_eq_self {xs : List α} (h : Ascending xs) : ofList xs = xs :=
  ext (ascending_ofList xs) h fun _ => mem_ofList

end Ascending

end RegularLanguage
