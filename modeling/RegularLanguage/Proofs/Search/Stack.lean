import RegularLanguage.Proofs.Search.Reach
/-!
# Searching with a stack

The nodes whose successors have not been visited yet wait on a stack. A node gets there when it is
visited, so it gets there once, and the stack is empty after as many steps as there are sources and
nodes. What has been visited by then are the nodes to which paths lead from the sources
(`exists_stackSearch_eq`), as in a search by rounds.

| here | `relang` |
| --- | --- |
| `drain` | the loop of `reachable_states`, and its like |
| `visit` | adding to `visited` and to `stack` |
-/

namespace RegularLanguage

open Std

variable {ν : Type} [Ord ν]

/-- Takes the nodes from the stack one by one and visits their successors, which are put on the
stack if they are new. There is no result if this does not end in `fuel` steps. -/
def drain (successors : ν → List ν) : Nat → Visit ν → Option (TreeSet ν compare)
  | _, (visited, []) => some visited
  | 0, (_, _ :: _) => none
  | fuel + 1, (visited, v :: stack) =>
    drain successors fuel ((successors v).foldl visit (visited, stack))

/-- The nodes that are found from the sources in at most `fuel` steps. -/
def stackSearch (successors : ν → List ν) (fuel : Nat) (sources : List ν) : Option (List ν) :=
  (drain successors fuel (TreeSet.ofList sources compare, sources)).map TreeSet.toList

variable {successors : ν → List ν} {sources nodes vs stack : List ν} {visited : TreeSet ν compare}
  {s : Visit ν} {v a : ν} {fuel : Nat}

/-! ## What has been visited -/

/-- All that has been visited can be reached from the sources, and where a node does not wait on the
stack any more, its successors have been visited. -/
structure IsSearching (successors : ν → List ν) (sources : List ν) (s : Visit ν) : Prop where
  source_visited : ∀ v ∈ sources, v ∈ s.1
  stack_visited : ∀ v ∈ s.2, v ∈ s.1
  leads : ∀ v ∈ s.1, ∃ u ∈ sources, Leads successors u v
  closed : ∀ v ∈ s.1, v ∉ s.2 → ∀ w ∈ successors v, w ∈ s.1

/-- When nothing waits any more, all that can be reached has been visited. -/
theorem IsSearching.mem_iff (h : IsSearching successors sources (visited, [])) :
    a ∈ visited ↔ ∃ u ∈ sources, Leads successors u a := by
  refine ⟨h.leads a, ?_⟩
  rintro ⟨u, hu, hua⟩
  have hstart : u ∈ visited := h.source_visited u hu
  clear hu
  induction hua with
  | refl => exact hstart
  | step hw _ ih => exact ih (h.closed _ hstart List.not_mem_nil _ hw)

/-! ## One step -/

variable [TransOrd ν]

/-- What waits on the stack and what has not been visited, together: a visit adds nothing. -/
theorem length_visit_add_unvisited_le (hv : v ∈ nodes) :
    (visit s v).2.length + unvisited nodes (visit s v).1 ≤ s.2.length + unvisited nodes s.1 := by
  unfold visit
  split
  · exact Nat.le_refl _
  · rename_i hnew
    have hlt : unvisited nodes (s.1.insert v) < unvisited nodes s.1 := by
      refine countP_lt_countP (fun u _ hu => ?_) hv (not_contains_iff.2 hnew) ?_
      · rw [not_contains_iff] at hu ⊢
        exact fun hold => hu (TreeSet.mem_insert.2 (.inr hold))
      · rw [Bool.not_eq_false']
        exact TreeSet.mem_insert_self
    simp only [List.length_cons]
    omega

theorem length_foldl_visit_add_unvisited_le (hvs : ∀ v ∈ vs, v ∈ nodes) :
    (vs.foldl visit s).2.length + unvisited nodes (vs.foldl visit s).1 ≤
      s.2.length + unvisited nodes s.1 := by
  induction vs generalizing s with
  | nil => exact Nat.le_refl _
  | cons v vs ih =>
    obtain ⟨hv, hvs⟩ := List.forall_mem_cons.1 hvs
    exact Nat.le_trans (ih hvs) (length_visit_add_unvisited_le hv)

variable [LawfulEqOrd ν]

theorem IsSearching.step (h : IsSearching successors sources (visited, v :: stack)) :
    IsSearching successors sources ((successors v).foldl visit (visited, stack)) where
  source_visited u hu := mem_foldl_visit.2 (.inl (h.source_visited u hu))
  stack_visited u hu := by
    rw [mem_foldl_visit]
    rcases mem_new_foldl_visit.1 hu with hold | ⟨hnew, -⟩
    · exact .inl (h.stack_visited u (List.mem_cons_of_mem v hold))
    · exact .inr hnew
  leads u hu := by
    rcases mem_foldl_visit.1 hu with hold | hnew
    · exact h.leads u hold
    · obtain ⟨r, hr, hrv⟩ := h.leads v (h.stack_visited v List.mem_cons_self)
      exact ⟨r, hr, hrv.trans (.step hnew (.refl u))⟩
  closed u hu hstack w hw := by
    rw [mem_foldl_visit]
    by_cases huv : u = v
    · exact .inr (huv ▸ hw)
    · -- what is new waits on the stack, so the node was visited before and waits no more
      have hold : u ∈ visited := by
        rcases mem_foldl_visit.1 hu with hold | hnew
        · exact hold
        · by_contra hunseen
          exact hstack (mem_new_foldl_visit.2 (.inr ⟨hnew, hunseen⟩))
      have hdone : u ∉ v :: stack := by
        rw [List.mem_cons, not_or]
        exact ⟨huv, fun hwaits => hstack (mem_new_foldl_visit.2 (.inl hwaits))⟩
      exact .inl (h.closed u hold hdone w hw)

/-! ## The whole search -/

theorem isSearching_start (successors : ν → List ν) (sources : List ν) :
    IsSearching successors sources (TreeSet.ofList sources compare, sources) := by
  -- both kinds of search begin with the sources visited
  have hmem : ∀ {v}, v ∈ (searched successors sources 0).1 ↔ v ∈ sources := mem_searched_zero
  exact {
    source_visited := fun v hv => hmem.2 hv
    stack_visited := fun v hv => hmem.2 hv
    leads := fun v hv => ⟨v, hmem.1 hv, .refl v⟩
    closed := fun v hv hstack => absurd (hmem.1 hv) hstack }

section

variable (hnodes : ∀ v, ∀ w ∈ successors v, w ∈ nodes)

include hnodes

theorem exists_drain_eq (h : IsSearching successors sources s)
    (hfuel : s.2.length + unvisited nodes s.1 ≤ fuel) :
    ∃ visited, drain successors fuel s = some visited ∧
      IsSearching successors sources (visited, []) := by
  induction fuel generalizing s with
  | zero =>
    obtain ⟨visited, _ | ⟨v, stack⟩⟩ := s
    · exact ⟨visited, rfl, h⟩
    · simp at hfuel
  | succ fuel ih =>
    obtain ⟨visited, _ | ⟨v, stack⟩⟩ := s
    · exact ⟨visited, rfl, h⟩
    · have hle := length_foldl_visit_add_unvisited_le (s := (visited, stack)) (hnodes v)
      simp only [List.length_cons] at hfuel hle
      exact ih h.step (by omega)

/-- With a step for each source and each node, the search ends with the nodes to which paths lead
from the sources. -/
theorem exists_stackSearch_eq (hfuel : sources.length + nodes.length ≤ fuel) :
    ∃ found, stackSearch successors fuel sources = some found ∧ Ascending found ∧
      ∀ v, v ∈ found ↔ ∃ u ∈ sources, Leads successors u v := by
  have hcount : unvisited nodes (TreeSet.ofList sources compare) ≤ nodes.length :=
    List.countP_le_length
  obtain ⟨visited, hdrain, hend⟩ := exists_drain_eq hnodes (isSearching_start successors sources)
    (Nat.le_trans (Nat.add_le_add_left hcount _) hfuel)
  refine ⟨visited.toList, ?_, TreeSet.ordered_toList, fun v => ?_⟩
  · rw [stackSearch, hdrain]
    rfl
  · rw [TreeSet.mem_toList]
    exact hend.mem_iff

end

end RegularLanguage
