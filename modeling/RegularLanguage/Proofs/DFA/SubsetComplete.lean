import RegularLanguage.Proofs.DFA.Complete
import RegularLanguage.Proofs.DFA.Isomorphism
import RegularLanguage.Proofs.DFA.SubsetRun
/-!
# Two ways to a complete automaton

The subset construction finds the empty set among the others, or it leaves it out and the automaton
is completed afterwards. Either way there is a run on each word over the known symbols, and it ends
in the state of the set in which the simulation ends, or in the new state if this set is empty. So
corresponding states stand for the same set (`exists_standsFor_of_corresponds`), and the automata
differ in their numbers alone (`determinize_complete_isomorphic`).
-/

namespace RegularLanguage.NFA

open RegularLanguage.DFA

variable {n : NFA} {s t r : State} {u w : Word} {qs rs : List State} {alphabet : List Symbol}
  {complete : Bool}

/-- Completing keeps the sets of states. -/
theorem lookup_complete_determinize :
    ((n.determinize alphabet complete).complete []).subsets.lookup s =
      (n.determinize alphabet complete).subsets.lookup s := by
  rw [complete_subsets]
  exact congrArg (List.lookup s) isArranged_arrangeSubsets.arrangeSubsets_eq

section

variable (h : n.IsValid)

include h

/-! ## Words of the states -/

theorem exists_runFrom_of_mem_determinize (hs : s ∈ (n.determinize alphabet complete).states) :
    ∃ w, (n.determinize alphabet complete).runFrom (n.determinize alphabet complete).start w =
      some s := by
  obtain ⟨w, hw⟩ := determinize_isShortlex h s hs
  exact ⟨w, hw.1⟩

theorem mem_determinize_states_of_lookup
    (hs : (n.determinize alphabet complete).subsets.lookup s = some qs) :
    s ∈ (n.determinize alphabet complete).states := by
  obtain ⟨i, hi, rfl⟩ := (lookup_determinize_subsets h).1 hs
  exact mem_determinize_states.2 ⟨i, Numbering.lt_size_of_key? hi, rfl⟩

/-- The least word to the state of a set that is not empty hangs on the set alone. -/
theorem isLeastWord_determinize_iff (hqs : qs ≠ [])
    (hs : (n.determinize alphabet complete).subsets.lookup s = some qs) :
    (n.determinize alphabet complete).IsLeastWord u s ↔
      n.run (u.map some) = qs ∧ ∀ v : Word, n.run (v.map some) = qs → u = v ∨ u.Before v := by
  simp only [IsLeastWord, determinize_runFrom_eq_some_iff h hs hqs]

/-- Whether the empty set is a state does not change the order of the other sets. -/
theorem lt_iff_lt_of_lookup {complete' : Bool} {s' t' : State} (hqs : qs ≠ []) (hrs : rs ≠ [])
    (hs : (n.determinize alphabet complete).subsets.lookup s = some qs)
    (ht : (n.determinize alphabet complete).subsets.lookup t = some rs)
    (hs' : (n.determinize alphabet complete').subsets.lookup s' = some qs)
    (ht' : (n.determinize alphabet complete').subsets.lookup t' = some rs) : s < t ↔ s' < t' := by
  have hsmem := mem_determinize_states_of_lookup h hs
  have htmem := mem_determinize_states_of_lookup h ht
  obtain ⟨u, hu⟩ := determinize_isShortlex h s hsmem
  obtain ⟨v, hv⟩ := determinize_isShortlex h t htmem
  -- the least words are those of the sets, so they are the same in both automata
  have hu' : (n.determinize alphabet complete').IsLeastWord u s' := by
    rw [isLeastWord_determinize_iff h hqs hs', ← isLeastWord_determinize_iff h hqs hs]
    exact hu.isLeastWord
  have hv' : (n.determinize alphabet complete').IsLeastWord v t' := by
    rw [isLeastWord_determinize_iff h hrs ht', ← isLeastWord_determinize_iff h hrs ht]
    exact hv.isLeastWord
  rw [(determinize_isShortlex h).lt_iff_before hsmem htmem hu.isLeastWord hv.isLeastWord,
    (determinize_isShortlex h).lt_iff_before (mem_determinize_states_of_lookup h hs')
      (mem_determinize_states_of_lookup h ht') hu' hv']

/-! ## Runs on both automata -/

theorem exists_determinize_true_run_iff : (∃ s, (n.determinize alphabet true).runFrom
      (n.determinize alphabet true).start w = some s) ↔ ∀ a ∈ w, a ∈ n.alphabet ∨ a ∈ alphabet := by
  constructor
  · rintro ⟨s, hs⟩ a ha
    exact (mem_determinize_alphabet h).1
      ((determinize_isValid h alphabet true).mem_alphabet_of_runFrom hs a ha)
  · intro hw
    exact (exists_determinize_run_iff h).2 (.inr ⟨rfl, hw⟩)

/-- The two complete automata accept the same words and run on the same words. -/
theorem determinize_agrees_complete :
    (n.determinize alphabet true).Agrees ((n.determinize alphabet false).complete []) := by
  have hv := determinize_isValid h alphabet false
  refine ⟨fun w => ?_, fun w => ?_⟩
  · rw [complete_accepts hv, determinize_accepts h, determinize_accepts h]
  · have hstart : (n.determinize alphabet false).start ∈
        ((n.determinize alphabet false).complete []).states :=
      mem_complete_states.2 (.inl hv.start_mem)
    rw [complete_start, exists_determinize_true_run_iff h, exists_complete_runFrom_iff hv hstart]
    simp [mem_determinize_alphabet h]

/-! ## Corresponding states -/

/-- The set for which a state of the automaton that is completed afterwards stands. The state that
is added stands for the empty set. -/
def StandsFor (n : NFA) (alphabet : List Symbol) (r : State) (qs : List State) : Prop :=
  qs ≠ [] ∧ (n.determinize alphabet false).subsets.lookup r = some qs ∨
    qs = [] ∧ r = (n.determinize alphabet false).freshState

theorem ne_freshState_of_lookup
    (hr : (n.determinize alphabet complete).subsets.lookup r = some qs) :
    r ≠ (n.determinize alphabet complete).freshState := by
  intro heq
  exact freshState_not_mem (heq ▸ mem_determinize_states_of_lookup h hr)

theorem StandsFor.set_eq (hqs : n.StandsFor alphabet r qs) (hrs : n.StandsFor alphabet r rs) :
    qs = rs := by
  rcases hqs with ⟨-, hr⟩ | ⟨rfl, rfl⟩ <;> rcases hrs with ⟨-, hr'⟩ | ⟨rfl, hr'⟩
  · exact Option.some.inj (hr.symm.trans hr')
  · exact absurd hr' (ne_freshState_of_lookup h hr)
  · exact absurd rfl (ne_freshState_of_lookup h hr')
  · rfl

theorem StandsFor.state_eq (hr : n.StandsFor alphabet r qs) (ht : n.StandsFor alphabet t qs) :
    r = t := by
  rcases hr with ⟨hne, hr⟩ | ⟨rfl, rfl⟩ <;> rcases ht with ⟨hne', ht⟩ | ⟨hempty, rfl⟩
  · exact eq_of_lookup_determinize_subsets h hr ht
  · exact absurd hempty hne
  · exact absurd rfl hne'
  · rfl

/-- Corresponding states stand for the same set. -/
theorem exists_standsFor_of_corresponds (hsr : Corresponds (n.determinize alphabet true)
      ((n.determinize alphabet false).complete []) s r) :
    ∃ qs, (n.determinize alphabet true).subsets.lookup s = some qs ∧
      n.StandsFor alphabet r qs := by
  have hv := determinize_isValid h alphabet false
  obtain ⟨w, hs, hr⟩ := hsr
  refine ⟨_, lookup_of_determinize_runFrom h hs, ?_⟩
  -- without the empty set the run goes on as long as the set is not empty
  have hruns : (∃ s, (n.determinize alphabet false).runFrom (n.determinize alphabet false).start w =
      some s) ↔ n.run (w.map some) ≠ [] := by
    simp [exists_determinize_run_iff h]
  rw [complete_start] at hr
  rcases complete_runFrom_cases hv hr with hold | ⟨hnone, rfl⟩
  · exact .inl ⟨hruns.1 ⟨r, hold⟩, lookup_of_determinize_runFrom h hold⟩
  · have hempty : n.run (w.map some) = [] := by simpa [hnone] using hruns
    exact .inr ⟨hempty, rfl⟩

theorem corresponds_complete_right_unique
    (hr : Corresponds (n.determinize alphabet true) ((n.determinize alphabet false).complete [])
      s r)
    (ht : Corresponds (n.determinize alphabet true) ((n.determinize alphabet false).complete [])
      s t) : r = t := by
  obtain ⟨qs, hs, hr⟩ := exists_standsFor_of_corresponds h hr
  obtain ⟨qs', hs', ht⟩ := exists_standsFor_of_corresponds h ht
  obtain rfl := Option.some.inj (hs.symm.trans hs')
  exact hr.state_eq h ht

theorem corresponds_complete_left_unique
    (hs : Corresponds (n.determinize alphabet true) ((n.determinize alphabet false).complete [])
      s r)
    (ht : Corresponds (n.determinize alphabet true) ((n.determinize alphabet false).complete [])
      t r) : s = t := by
  obtain ⟨qs, hs, hr⟩ := exists_standsFor_of_corresponds h hs
  obtain ⟨qs', ht, hr'⟩ := exists_standsFor_of_corresponds h ht
  obtain rfl := hr.set_eq h hr'
  exact eq_of_lookup_determinize_subsets h hs ht

/-- Taking states to the states that stand for their sets is a renaming. -/
theorem exists_isIsomorphism_standsFor (alphabet : List Symbol) :
    ∃ f, IsIsomorphism f (n.determinize alphabet true)
        ((n.determinize alphabet false).complete []) ∧
      ∀ s ∈ (n.determinize alphabet true).states, ∃ qs,
        (n.determinize alphabet true).subsets.lookup s = some qs ∧
          n.StandsFor alphabet (f s) qs := by
  have hv := determinize_isValid h alphabet false
  have hreach : ∀ r ∈ ((n.determinize alphabet false).complete []).states, ∃ w,
      ((n.determinize alphabet false).complete []).runFrom
        ((n.determinize alphabet false).complete []).start w = some r := by
    intro r hr
    exact exists_runFrom_of_mem_complete hv
      (fun _ hq => exists_runFrom_of_mem_determinize h hq) hr
  obtain ⟨f, hf, hcorresponds⟩ := (determinize_agrees_complete h).exists_isIsomorphism
    (determinize_isValid h alphabet true) (complete_isValid hv)
    (fun _ hq => exists_runFrom_of_mem_determinize h hq) hreach
    (fun _ _ _ hr ht => corresponds_complete_right_unique h hr ht)
    (fun _ _ _ hs ht => corresponds_complete_left_unique h hs ht)
  exact ⟨f, hf, fun s hs => exists_standsFor_of_corresponds h (hcorresponds s hs)⟩

theorem determinize_alphabet_eq_complete : (n.determinize alphabet true).alphabet =
    ((n.determinize alphabet false).complete []).alphabet := by
  have hv := determinize_isValid h alphabet false
  refine Ascending.ext (determinize_isValid h alphabet true).alphabet_ascending
    (complete_isValid hv).alphabet_ascending fun a => ?_
  simp [mem_complete_alphabet hv, mem_determinize_alphabet h]

end

/-- The subset construction with the empty set, and the one without it that is completed afterwards,
yield isomorphic automata. States of the same set are renamed to each other, and the state of the
empty set, if there is one, to the state that is added. States of other sets come in the same
order. -/
theorem determinize_complete_isomorphic (n : NFA) (h : n.IsValid) (alphabet : List Symbol) :
    let d := n.determinize alphabet true
    let e := n.determinize alphabet false
    let c := e.complete []
    d.alphabet = c.alphabet ∧ ∃ f, IsIsomorphism f d c ∧
      (∀ s ∈ d.states, ∀ qs, d.subsets.lookup s = some qs →
        (qs ≠ [] → c.subsets.lookup (f s) = some qs) ∧ (qs = [] → f s = e.freshState)) ∧
      ∀ s ∈ d.states, ∀ t ∈ d.states, d.subsets.lookup s ≠ some [] → d.subsets.lookup t ≠ some [] →
        (s < t ↔ f s < f t) := by
  intro d e c
  obtain ⟨f, hf, hstands⟩ := exists_isIsomorphism_standsFor h alphabet
  refine ⟨determinize_alphabet_eq_complete h, f, hf, ?_, ?_⟩
  · intro s hs qs hqs
    obtain ⟨qs', hqs', hset⟩ := hstands s hs
    obtain rfl := Option.some.inj (hqs.symm.trans hqs')
    rw [lookup_complete_determinize]
    rcases hset with ⟨hne, hlookup⟩ | ⟨hempty, hfresh⟩
    · exact ⟨fun _ => hlookup, fun hempty => absurd hempty hne⟩
    · exact ⟨fun hne => absurd hempty hne, fun _ => hfresh⟩
  · intro s hs t ht hsne htne
    obtain ⟨qs, hqs, ⟨hne, hlookup⟩ | ⟨rfl, -⟩⟩ := hstands s hs
    · obtain ⟨rs, hrs, ⟨hne', hlookup'⟩ | ⟨rfl, -⟩⟩ := hstands t ht
      · exact lt_iff_lt_of_lookup h hne hne' hqs hrs hlookup hlookup'
      · exact absurd hrs htne
    · exact absurd hqs hsne

/-- The empty set, found in the middle, is renamed to the state that is added at the end. -/
theorem determinize_complete_isomorphic_cyclic : cyclic.IsValid ∧
    let d := cyclic.determinize ["A"] true
    let c := (cyclic.determinize ["A"] false).complete []
    d.subsets = [(0, [-2, 5]), (1, []), (2, [9])] ∧ c.subsets = [(0, [-2, 5]), (1, [9])] ∧
      ∃ f, IsIsomorphism f d c ∧ c.subsets.lookup (f 0) = some [-2, 5] ∧ f 1 = 2 ∧
        c.subsets.lookup (f 2) = some [9] ∧ f 0 < f 2 := by
  have hstates : (cyclic.determinize ["A"] true).states = [0, 1, 2] := by decide +kernel
  have hsubsets : (cyclic.determinize ["A"] true).subsets = [(0, [-2, 5]), (1, []), (2, [9])] := by
    decide +kernel
  have hfresh : (cyclic.determinize ["A"] false).freshState = 2 := by decide +kernel
  obtain ⟨-, f, hf, hset, horder⟩ := determinize_complete_isomorphic cyclic cyclic_isValid ["A"]
  refine ⟨cyclic_isValid, hsubsets, by decide +kernel, f, hf, ?_, ?_, ?_, ?_⟩
  · exact (hset 0 (by simp [hstates]) [-2, 5] (by rw [hsubsets]; rfl)).1 (by simp)
  · rw [← hfresh]
    exact (hset 1 (by simp [hstates]) [] (by rw [hsubsets]; rfl)).2 rfl
  · exact (hset 2 (by simp [hstates]) [9] (by rw [hsubsets]; rfl)).1 (by simp)
  · exact (horder 0 (by simp [hstates]) 2 (by simp [hstates]) (by rw [hsubsets]; decide)
      (by rw [hsubsets]; decide)).1 (by decide)

end RegularLanguage.NFA
