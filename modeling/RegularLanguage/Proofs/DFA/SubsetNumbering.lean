import RegularLanguage.Proofs.DFA.SubsetRun
/-!
# The numbers of the sets

The subset construction numbers sets from nought on in the order in which it finds them, each once.
A set is found along its first word, by length and then by symbols. So the least words of states
come in the order of the states (`determinize_numbered_by_words`).
-/

namespace RegularLanguage.NFA

variable {n : NFA} {alphabet : List Symbol} {complete : Bool}

/-- There are no more states than sets. -/
theorem size_subsets_le (h : n.IsValid) :
    (n.subsets alphabet complete).found.size ≤ 2 ^ n.states.length := by
  have hsize := (subsets_isBreadthFirst h alphabet complete).size_le (closure_start_mem_sublists h)
    fun _ _ _ hm => mem_sublists_of_mem_subsetMoves h hm
  exact Nat.le_trans hsize n.length_sublists_states

/-- The states are the numbers below some bound, the start being the first, and there are at most as
many as sets of states. Each has a set of its own and a least word, which leads to it and on which
the simulation ends in its set. No set to which a word leads is left out, but for the empty set if
the automaton is partial. The states are in the order of their least words: shorter words come
first, and words of one length come in the order of their symbols. -/
theorem determinize_numbered_by_words (n : NFA) (h : n.IsValid) (alphabet : List Symbol)
    (complete : Bool) :
    let d := n.determinize alphabet complete
    d.start = 0 ∧ (∃ m ≤ 2 ^ n.states.length, d.states = (List.range m).map Int.ofNat) ∧
      (∀ s ∈ d.states, ∀ t ∈ d.states, d.subsets.lookup s = d.subsets.lookup t → s = t) ∧
      (∀ s ∈ d.states, ∃ u, d.IsLeastWord u s ∧
        d.subsets.lookup s = some (n.run (u.map some))) ∧
      (∀ w : Word, (∀ a ∈ w, a ∈ n.alphabet ∨ a ∈ alphabet) →
        (n.run (w.map some) = [] → complete = true) →
        ∃ s ∈ d.states, d.subsets.lookup s = some (n.run (w.map some))) ∧
      ∀ s ∈ d.states, ∀ t ∈ d.states, ∀ u v, d.IsLeastWord u s → d.IsLeastWord v t →
        (s < t ↔ u.Before v) := by
  intro d
  have hshort : d.IsShortlex := determinize_isShortlex h
  have hvalid : d.IsValid := determinize_isValid h alphabet complete
  refine ⟨rfl, ⟨_, size_subsets_le h, determinize_states⟩, ?_, ?_, ?_, ?_⟩
  · intro s hs t _ heq
    obtain ⟨qs, hqs⟩ := exists_lookup_determinize_subsets h hs
    exact eq_of_lookup_determinize_subsets h hqs (heq ▸ hqs)
  · intro s hs
    obtain ⟨u, hu⟩ := hshort s hs
    exact ⟨u, hu.isLeastWord, lookup_of_determinize_runFrom h hu.1⟩
  · intro w hw hcounts
    have hrun : ∃ s, d.runFrom d.start w = some s := by
      rw [exists_determinize_run_iff h]
      by_cases hempty : n.run (w.map some) = []
      · exact .inr ⟨hcounts hempty, hw⟩
      · exact .inl hempty
    obtain ⟨s, hs⟩ := hrun
    exact ⟨s, hvalid.mem_of_runFrom hvalid.start_mem hs, lookup_of_determinize_runFrom h hs⟩
  · intro s hs t ht u v hu hv
    exact hshort.lt_iff_before hs ht hu hv

/-- The empty set has a number in the middle, as its word comes before that of the last set. -/
theorem determinize_numbered_by_words_cyclic : cyclic.IsValid ∧
    let d := cyclic.determinize ["A"] true
    d.start = 0 ∧ d.states = [0, 1, 2] ∧ d.subsets = [(0, [-2, 5]), (1, []), (2, [9])] ∧
      ∃ u v, d.IsLeastWord u 1 ∧ d.IsLeastWord v 2 ∧ u.Before v := by
  have hstates : (cyclic.determinize ["A"] true).states = [0, 1, 2] := by decide +kernel
  obtain ⟨hstart, -, -, hword, -, horder⟩ :=
    determinize_numbered_by_words cyclic cyclic_isValid ["A"] true
  have h1 : 1 ∈ (cyclic.determinize ["A"] true).states := by simp [hstates]
  have h2 : 2 ∈ (cyclic.determinize ["A"] true).states := by simp [hstates]
  obtain ⟨u, hu, -⟩ := hword 1 h1
  obtain ⟨v, hv, -⟩ := hword 2 h2
  exact ⟨cyclic_isValid, hstart, hstates, by decide +kernel, u, v, hu, hv,
    (horder 1 h1 2 h2 u v hu hv).1 (by decide)⟩

end RegularLanguage.NFA
