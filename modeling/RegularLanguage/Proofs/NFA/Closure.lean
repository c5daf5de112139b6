import RegularLanguage.Proofs.Automaton.Search
/-!
# Silent moves as a closure operator

The states that silent moves lead to are found with a stack, whatever cycles the moves form and in
whatever order they are looked at. They are the least set that holds the given states and that no
silent move leads out of; so the closure of a union is the union of the closures, and the same holds
of a step, which is the closure of what one move leads to (`closure_isLeastClosed_and_union`).

| here | `relang` |
| --- | --- |
| `closure`, `step` | `epsilon_closure`, `step` |
-/

namespace RegularLanguage.NFA

variable {n : NFA} {p q : State} {xs : List State} {S : Set State}

/-- No silent move leads out of the set. -/
def IsSilentlyClosed (n : NFA) (S : Set State) : Prop :=
  ∀ p ∈ S, ∀ q, ⟨p, none, q⟩ ∈ n.edges → q ∈ S

/-- The set holds the given states, no silent move leads out of it, and it is part of every other
set of that kind. -/
structure IsLeastClosed (n : NFA) (given found : List State) : Prop where
  subset : ∀ q ∈ given, q ∈ found
  closed : n.IsSilentlyClosed {q | q ∈ found}
  least : ∀ S : Set State, (∀ q ∈ given, q ∈ S) → n.IsSilentlyClosed S → ∀ q ∈ found, q ∈ S

/-! ## Closed sets -/

/-- What no silent move leads out of, no path of silent moves leads out of. -/
theorem IsSilentlyClosed.mem_of_path (hS : n.IsSilentlyClosed S) (h : n.Path p [] q) (hp : p ∈ S) :
    q ∈ S := by
  generalize hw : ([] : Word) = w at h
  induction h with
  | nil => exact hp
  | silent he _ ih => exact ih (hS _ hp _ he) hw
  | symbol => cases hw

theorem IsClosed.isSilentlyClosed (h : n.IsClosed xs) : n.IsSilentlyClosed {q | q ∈ xs} := by
  intro p hp q he
  exact h p hp q (.silent he (.nil q))

theorem closure_isLeastClosed (n : NFA) (xs : List State) : n.IsLeastClosed xs (n.closure xs) where
  subset q hq := mem_closure.2 ⟨q, hq, .nil q⟩
  closed := (isClosed_closure n xs).isSilentlyClosed
  least S hxs hS q hq := by
    obtain ⟨p, hp, hpq⟩ := mem_closure.1 hq
    exact hS.mem_of_path hpq (hxs p hp)

/-! ## The search for them -/

/-- The search with a stack ends with the closure, in whatever order silent moves are looked at. -/
theorem stackReach_eq_closure {successors : State → List State}
    (h : ∀ p q, q ∈ successors p ↔ ⟨p, none, q⟩ ∈ n.edges) (xs : List State) :
    n.stackReach successors xs = some (n.closure xs) := by
  refine Automaton.stackReach_eq_some Edge.target (fun p q hq => ?_) (fun p q => ?_)
    (ascending_reach _ _ _) fun q => Digraph.mem_reach
  · exact ⟨_, (h p q).1 hq, rfl⟩
  · exact (h p q).trans mem_silent_successors.symm

/-! ## Unions -/

theorem closure_union (n : NFA) (xs ys : List State) :
    n.closure (Ascending.ofList (xs ++ ys)) = Ascending.ofList (n.closure xs ++ n.closure ys) := by
  refine Ascending.ext (ascending_reach _ _ _) (Ascending.ascending_ofList _) fun q => ?_
  simp only [mem_closure, Ascending.mem_ofList, List.mem_append, or_and_right, exists_or]

theorem step_union (n : NFA) (xs ys : List State) (l : Label) :
    n.step (Ascending.ofList (xs ++ ys)) l = Ascending.ofList (n.step xs l ++ n.step ys l) := by
  refine Ascending.ext (ascending_reach _ _ _) (Ascending.ascending_ofList _) fun q => ?_
  simp only [mem_step, Ascending.mem_ofList, List.mem_append, or_and_right, exists_or]

/-- From any states, also from numbers that are no states of the automaton, the search along silent
moves ends with the least closed set around them. The closure of a union is the union of the
closures, a step from a union is the union of the steps, and what a step leads to is closed. -/
theorem closure_isLeastClosed_and_union (n : NFA) (xs ys : List State) (a : Symbol) :
    (∀ successors : State → List State, (∀ p q, q ∈ successors p ↔ ⟨p, none, q⟩ ∈ n.edges) →
      n.stackReach successors xs = some (n.closure xs)) ∧
    n.IsLeastClosed xs (n.closure xs) ∧
    n.closure (Ascending.ofList (xs ++ ys)) = Ascending.ofList (n.closure xs ++ n.closure ys) ∧
    n.step (Ascending.ofList (xs ++ ys)) (some a) =
      Ascending.ofList (n.step xs (some a) ++ n.step ys (some a)) ∧
    n.IsSilentlyClosed {q | q ∈ n.step xs (some a)} :=
  ⟨fun _ h => stackReach_eq_closure h xs, closure_isLeastClosed n xs, closure_union n xs ys,
    step_union n xs ys (some a), (isClosed_step n xs (some a)).isSilentlyClosed⟩

example : roundabout.closure [1, 7] = [1, 4, 7] ∧ roundabout.step [1, 7] (some "a") = [-6, 8] := by
  decide

end RegularLanguage.NFA
