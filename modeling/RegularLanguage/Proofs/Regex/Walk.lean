import RegularLanguage.Proofs.NFA.Thompson
import RegularLanguage.Regex.Printer
/-!
# Walks with a stack do what recursion does

A walk is a loop that takes the task on top of a stack in every round. A round that succeeds does
not change what the walk comes to (`walk_of_round`), so neither does any number of them. Where every
visit to a node does to the results of its operands what recursion does, a task is done after a
number of rounds that depends on its expression alone, whatever tasks wait below it and whatever has
been built before (`Performs.rounds_enter`). Both walks of the library are of this kind: fragments
are put together and patterns are written as by recursion (`walks_end_as_recursion`).

| here | `relang` |
| --- | --- |
| `round` | once through the loops of `compile_to_nfa` and `to_pattern` |
-/

namespace RegularLanguage.Regex

variable {σ : Type} {visit : Regex → σ → Option σ} {eval : Regex → σ → σ}
  {tasks tasks' rest : List Task} {x y : σ} {j k : Nat}

/-! ## Rounds -/

/-- One round. A node that is entered is put back below its operands, to be left after them; a leaf,
or a node that is left, is visited. A round fails if the visit does, or if there is no task. -/
def round (visit : Regex → σ → Option σ) : List Task × σ → Option (List Task × σ)
  | ([], _) => none
  | (.enter (concat r s) :: rest, x) =>
    some (.enter r :: .enter s :: .leave (concat r s) :: rest, x)
  | (.enter (union r s) :: rest, x) =>
    some (.enter r :: .enter s :: .leave (union r s) :: rest, x)
  | (.enter (star r) :: rest, x) => some (.enter r :: .leave (star r) :: rest, x)
  | (.enter r :: rest, x) | (.leave r :: rest, x) => (visit r x).map fun y => (rest, y)

/-- What some rounds lead to, if none of them fails. -/
def rounds (visit : Regex → σ → Option σ) : Nat → List Task × σ → Option (List Task × σ)
  | 0, t => some t
  | k + 1, t => (round visit t).bind (rounds visit k)

/-- A leaf takes one round. Every other node takes two, besides those of its operands. -/
def roundCount : Regex → Nat
  | empty | epsilon | literal _ => 1
  | concat r s | union r s => r.roundCount + s.roundCount + 2
  | star r => r.roundCount + 2

/-- The walk goes on for some rounds, none of which fails, and then has no task left. -/
structure EndsAfter (visit : Regex → σ → Option σ) (k : Nat) (r : Regex) (x y : σ) : Prop where
  goes_on : ∀ j < k, ∃ tasks z, rounds visit j ([.enter r], x) = some (tasks, z) ∧ tasks ≠ []
  ends : rounds visit k ([.enter r], x) = some ([], y)
  postOrder_eq : postOrder visit r x = some y

theorem rounds_add (j k : Nat) (t : List Task × σ) :
    rounds visit (j + k) t = (rounds visit j t).bind (rounds visit k) := by
  induction j generalizing t with
  | zero => simp [rounds]
  | succ j ih =>
    rw [Nat.succ_add, rounds, rounds, Option.bind_assoc]
    exact congrArg _ (funext ih)

/-- A round that succeeds does not change what the walk comes to. -/
theorem walk_of_round (h : round visit (tasks, x) = some (tasks', y)) :
    walk visit tasks x = walk visit tasks' y := by
  -- a leaf is visited in the round in which it is entered
  have hvisit : ∀ {r rest}, (visit r x).map (fun z => (rest, z)) = some (tasks', y) →
      walk visit (.leave r :: rest) x = walk visit tasks' y := by
    intro r rest hr
    obtain ⟨z, hz, heq⟩ := Option.map_eq_some_iff.1 hr
    cases heq
    simp [walk, hz]
  cases tasks with
  | nil => cases h
  | cons task rest =>
    cases task with
    | leave r => exact hvisit h
    | enter r =>
      cases r with
      | empty | epsilon | literal =>
        rw [walk]
        exact hvisit h
      | concat | union | star =>
        cases h
        rw [walk]

theorem walk_of_rounds (h : rounds visit k (tasks, x) = some ([], y)) :
    walk visit tasks x = some y := by
  induction k generalizing tasks x with
  | zero =>
    cases h
    rw [walk]
  | succ k ih =>
    obtain ⟨⟨tasks', z⟩, hround, hrest⟩ := Option.bind_eq_some_iff.1 h
    rw [walk_of_round hround, ih hrest]

/-- As long as rounds are left, there is a task. -/
theorem exists_rounds_of_lt (h : rounds visit k (tasks, x) = some (rest, y)) (hj : j < k) :
    ∃ tasks' z, rounds visit j (tasks, x) = some (tasks', z) ∧ tasks' ≠ [] := by
  obtain ⟨i, rfl⟩ : ∃ i, k = j + (i + 1) := ⟨k - j - 1, by omega⟩
  rw [rounds_add] at h
  obtain ⟨⟨tasks', z⟩, hfirst, hlast⟩ := Option.bind_eq_some_iff.1 h
  refine ⟨tasks', z, hfirst, ?_⟩
  rintro rfl
  cases hlast

/-! ## Visits that do what recursion does -/

/-- A visit to a node finds what `eval` has made of the operands, one after the other, and leaves
what `eval` makes of the node. -/
structure Performs (visit : Regex → σ → Option σ) (eval : Regex → σ → σ) : Prop where
  visit_empty : ∀ x, visit empty x = some (eval empty x)
  visit_epsilon : ∀ x, visit epsilon x = some (eval epsilon x)
  visit_literal : ∀ a x, visit (literal a) x = some (eval (literal a) x)
  visit_concat : ∀ r s x, visit (concat r s) (eval s (eval r x)) = some (eval (concat r s) x)
  visit_union : ∀ r s x, visit (union r s) (eval s (eval r x)) = some (eval (union r s) x)
  visit_star : ∀ r x, visit (star r) (eval r x) = some (eval (star r) x)

namespace Performs

/-- The rounds of an expression take its task from the stack and change nothing below. -/
theorem rounds_enter (h : Performs visit eval) (r : Regex) (rest : List Task) (x : σ) (k : Nat) :
    rounds visit (r.roundCount + k) (.enter r :: rest, x) = rounds visit k (rest, eval r x) := by
  induction r generalizing rest x k with
  | empty | epsilon | literal =>
    simp [roundCount, Nat.add_comm 1, rounds, round, h.visit_empty, h.visit_epsilon,
      h.visit_literal]
  | concat r s ihr ihs | union r s ihr ihs =>
    -- the node is entered, its operands are done, the node is left
    have hcount : r.roundCount + s.roundCount + 2 + k =
        r.roundCount + (s.roundCount + (k + 1)) + 1 := by
      omega
    rw [roundCount, hcount, rounds, round, Option.bind_some, ihr, ihs]
    simp [rounds, round, h.visit_concat, h.visit_union]
  | star r ih =>
    have hcount : r.roundCount + 2 + k = r.roundCount + (k + 1) + 1 := by
      omega
    rw [roundCount, hcount, rounds, round, Option.bind_some, ih]
    simp [rounds, round, h.visit_star]

theorem endsAfter (h : Performs visit eval) (r : Regex) (x : σ) :
    EndsAfter visit r.roundCount r x (eval r x) := by
  have hends : rounds visit r.roundCount ([.enter r], x) = some ([], eval r x) :=
    h.rounds_enter r [] x 0
  exact ⟨fun j hj => exists_rounds_of_lt hends hj, hends, walk_of_rounds hends⟩

end Performs

/-! ## Both walks -/

theorem pushFragment_performs : Performs pushFragment fun r (fs, b) =>
    ((r.fragment b).1 :: fs, (r.fragment b).2) where
  visit_empty _ := rfl
  visit_epsilon _ := rfl
  visit_literal _ _ := rfl
  visit_concat _ _ _ := rfl
  visit_union _ _ _ := rfl
  visit_star _ _ := rfl

theorem pushText_performs (m : Markers) :
    Performs (pushText m) fun r texts => r.structuralPattern m :: texts where
  visit_empty _ := rfl
  visit_epsilon _ := rfl
  visit_literal _ _ := rfl
  visit_concat _ _ _ := rfl
  visit_union _ _ _ := rfl
  visit_star _ _ := rfl

/-- Both walks come to an end without missing an operand, with one fragment and one text on their
stacks. These are the ones that recursion gives, left operand first; so the automaton and the
pattern are those of the recursion too. -/
theorem walks_end_as_recursion (r : Regex) (alphabet : List Symbol) (m : Markers) :
    EndsAfter pushFragment r.roundCount r ([], {}) ([(r.fragment {}).1], (r.fragment {}).2) ∧
    r.assemble {} = some (r.fragment {}) ∧
    (r.fragment {}).2.build (r.fragment {}).1.start [(r.fragment {}).1.accept] alphabet =
      .ok (r.toNFA alphabet) ∧
    EndsAfter (pushText m) r.roundCount r [] [r.structuralPattern m] ∧
    r.toPattern m = r.structuralPattern m :=
  ⟨pushFragment_performs.endsAfter r ([], {}), r.assemble_eq_fragment {}, r.build_fragment alphabet,
    (pushText_performs m).endsAfter r [], r.toPattern_eq_structuralPattern m⟩

end RegularLanguage.Regex
