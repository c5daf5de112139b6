import RegularLanguage.Proofs.DFA.Complete
import RegularLanguage.Proofs.DFA.SubsetRun
/-!
# What completion keeps and adds

All that an automaton has is kept when it is completed: states, moves, final states, the sets that
its states stand for, and the words that each state accepts. What is added is one state at most,
which is entered where a move was missing and is never left. A complete automaton is its own
completion, so completing twice is completing once (`complete_isCompletion`).

| here | `relang` |
| --- | --- |
| `IsCompletion` | what `complete` gives |
-/

namespace RegularLanguage.DFA

variable {d : DFA} {alphabet : List Symbol} {subsets : List (State × List State)}

/-! ## Sets in order -/

/-- Automata are built with their sets in order. -/
theorem isArranged_of_build {states : List State} {start : State} {final : List State}
    {edges : List (Edge Label)} (h : build states start final edges alphabet subsets = .ok d) :
    IsArranged d.subsets := by
  unfold build at h
  split at h
  · cases h
  · cases h
    exact isArranged_arrangeSubsets

/-! ## Completing what is complete -/

/-- Where no move is missing, completing changes nothing. -/
theorem complete_eq_self (h : d.IsValid) (hs : IsArranged d.subsets) (htotal : d.IsTotal alphabet)
    (hknown : ∀ a ∈ alphabet, a ∈ d.alphabet) : d.complete alphabet = d := by
  refine (complete_isValid h).ext h (fun q => ?_) complete_start (fun q => mem_complete_final)
    (fun p a q => ?_) (fun a => ?_) ?_
  · rw [mem_complete_states]
    exact or_iff_left fun hnew => hnew.1 htotal
  · rw [mem_complete_edges]
    exact or_iff_left fun hnew => (mem_sinkMoves.1 hnew).1 htotal
  · rw [mem_complete_alphabet h]
    exact or_iff_left_of_imp (hknown a)
  · rw [complete_subsets, hs.arrangeSubsets_eq]

theorem complete_isTotal (h : d.IsValid) : (d.complete alphabet).IsTotal alphabet := by
  intro q hq a ha
  refine (exists_complete_delta_iff h hq).2 ?_
  rcases ha with ha | ha
  · exact (mem_complete_alphabet h).1 ha
  · exact .inr ha

theorem complete_complete (h : d.IsValid) :
    (d.complete alphabet).complete alphabet = d.complete alphabet := by
  have hs : IsArranged (d.complete alphabet).subsets := by
    rw [complete_subsets]
    exact isArranged_arrangeSubsets
  exact complete_eq_self (complete_isValid h) hs (complete_isTotal h) fun a ha =>
    (mem_complete_alphabet h).2 (.inr ha)

/-! ## States of the completed automaton -/

theorem ascending_concat_freshState (h : d.IsValid) : Ascending (d.states ++ [d.freshState]) := by
  refine List.pairwise_append.2 ⟨h.states_ascending, List.pairwise_singleton _ _, ?_⟩
  intro q hq r hr
  rw [List.mem_singleton.1 hr]
  exact Int.compare_eq_lt.2 (lt_freshState hq)

theorem complete_states_of_isTotal (h : d.IsValid) (htotal : d.IsTotal alphabet) :
    (d.complete alphabet).states = d.states := by
  refine Ascending.ext (complete_isValid h).states_ascending h.states_ascending fun q => ?_
  rw [mem_complete_states]
  exact or_iff_left fun hnew => hnew.1 htotal

theorem complete_states_of_not_isTotal (h : d.IsValid) (hpartial : ¬ d.IsTotal alphabet) :
    (d.complete alphabet).states = d.states ++ [d.freshState] := by
  refine Ascending.ext (complete_isValid h).states_ascending (ascending_concat_freshState h)
    fun q => ?_
  rw [mem_complete_states, List.mem_append, List.mem_singleton, and_iff_right hpartial]

/-! ## Completion -/

/-- The state is not final, and no move leads from it to another state. -/
structure IsSink (d : DFA) (s : State) : Prop where
  not_final : s ∉ d.final
  eq_of_delta : ∀ a r, d.delta s a = some r → r = s

theorem freshState_isSink (h : d.IsValid) : (d.complete alphabet).IsSink d.freshState where
  not_final hfinal := freshState_not_mem (h.final_mem _ (mem_complete_final.1 hfinal))
  eq_of_delta a r hr := by
    rcases complete_delta_cases h hr with hold | ⟨-, hr⟩
    · rw [freshState_delta h] at hold
      cases hold
    · exact hr

/-- The automaton `c` is `d` made complete over the symbols of both alphabets: what `d` has is kept,
moves are added only to a state that is added, and this is one sink, if moves were missing. -/
structure IsCompletion (d : DFA) (alphabet : List Symbol) (c : DFA) : Prop where
  acceptsFrom_eq : ∀ q ∈ d.states, ∀ w, c.acceptsFrom q w = d.acceptsFrom q w
  mem_alphabet_iff : ∀ a, a ∈ c.alphabet ↔ a ∈ d.alphabet ∨ a ∈ alphabet
  exists_delta : ∀ q ∈ c.states, ∀ a, a ∈ d.alphabet ∨ a ∈ alphabet → ∃ r, c.delta q a = some r
  start_eq : c.start = d.start
  final_eq : c.final = d.final
  edges_subset : d.edges ⊆ c.edges
  target_new : ∀ e ∈ c.edges, e ∉ d.edges → e.target ∉ d.states
  subsets_eq : c.subsets = d.subsets
  states_cases : d.IsTotal alphabet ∧ c.states = d.states ∨
    ¬ d.IsTotal alphabet ∧ ∃ s ∉ d.states, c.states = d.states ++ [s] ∧ c.IsSink s
  complete_eq : c.complete alphabet = c

theorem complete_isCompletion (d : DFA) (h : d.IsValid) (hs : IsArranged d.subsets)
    (alphabet : List Symbol) : IsCompletion d alphabet (d.complete alphabet) where
  acceptsFrom_eq _ _ _ := complete_acceptsFrom h
  mem_alphabet_iff _ := mem_complete_alphabet h
  exists_delta _ hq _ := (exists_complete_delta_iff h hq).2
  start_eq := complete_start
  final_eq := Ascending.ext (complete_isValid h).final_ascending h.final_ascending
    fun _ => mem_complete_final
  edges_subset _ he := mem_complete_edges.2 (.inl he)
  target_new e he hnew := by
    obtain ⟨-, -, -, -, htarget⟩ := mem_sinkMoves.1 ((mem_complete_edges.1 he).resolve_left hnew)
    exact htarget ▸ freshState_not_mem
  subsets_eq := by rw [complete_subsets, hs.arrangeSubsets_eq]
  states_cases := by
    by_cases htotal : d.IsTotal alphabet
    · exact .inl ⟨htotal, complete_states_of_isTotal h htotal⟩
    · exact .inr ⟨htotal, d.freshState, freshState_not_mem,
        complete_states_of_not_isTotal h htotal, freshState_isSink h⟩
  complete_eq := complete_complete h

/-- Two states that stand for sets, with a move under one of two symbols. -/
def halfway : DFA := ofParts [2, 5] 2 [5] [⟨2, "a", 5⟩] ["b"] [(5, [3, 4]), (2, [0])]

theorem complete_isCompletion_halfway : halfway.IsValid ∧ IsArranged halfway.subsets ∧
    IsCompletion halfway ["c", "a"] (halfway.complete ["c", "a"]) := by
  have hbuild : build [2, 5] 2 [5] [⟨2, some "a", 5⟩] ["b"] [(5, [3, 4]), (2, [0])] =
      .ok halfway := by rfl
  have hvalid : halfway.IsValid := build_isValid hbuild (by decide)
  have hs : IsArranged halfway.subsets := isArranged_of_build hbuild
  exact ⟨hvalid, hs, complete_isCompletion halfway hvalid hs ["c", "a"]⟩

example : (halfway.complete ["c", "a"]).states = [2, 5, 6] := by decide

end RegularLanguage.DFA
