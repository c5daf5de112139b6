import RegularLanguage.Proofs.DFA.Subset
import RegularLanguage.Proofs.Search.Grouping
/-!
# Runs of the subset construction

The deterministic automaton runs as the simulation does: the state to which a word leads stands for
the set of states in which the nondeterministic automaton is after the word. A run breaks off where
this set becomes empty, or, in the complete automaton, at a symbol of neither alphabet
(`determinize_simulates`). Each set has one state, so the words that lead to the state are those
that lead to the set (`determinize_runFrom_eq_some_iff`).
-/

namespace RegularLanguage

open Std

/-! ## The sets of the states -/

namespace DFA

variable {subsets : List (State × List State)} {q : State} {qs : List State}

theorem arrangeSubsets_eq : arrangeSubsets subsets =
    (TreeMap.ofList (subsets.map fun x => (x.1, Ascending.ofList x.2)) compare).toList := by
  rw [TreeMap.ofList_equiv_foldl.toList_eq, List.foldl_map]
  rfl

/-- Sets that are in order, one for each state, are kept as they are given. -/
theorem mem_arrangeSubsets (hkeys : subsets.Pairwise fun x y => x.1 ≠ y.1)
    (hsets : ∀ x ∈ subsets, Ascending x.2) :
    (q, qs) ∈ arrangeSubsets subsets ↔ (q, qs) ∈ subsets := by
  have hraw : subsets.map (fun x => (x.1, Ascending.ofList x.2)) = subsets := by
    conv_rhs => rw [← List.map_id subsets]
    exact List.map_congr_left fun x hx => by rw [Ascending.ofList_eq_self (hsets x hx)]; rfl
  rw [arrangeSubsets_eq, hraw, TreeMap.mem_toList_iff_getElem?_eq_some,
    getElem?_ofList_eq_some_iff_mem hkeys]

theorem pairwise_arrangeSubsets : (arrangeSubsets subsets).Pairwise fun x y => x.1 ≠ y.1 :=
  pairwise_toList _

/-- Sets that are in order, one for each state, are found as they are given. -/
theorem lookup_arrangeSubsets (hkeys : subsets.Pairwise fun x y => x.1 ≠ y.1)
    (hsets : ∀ x ∈ subsets, Ascending x.2) :
    (arrangeSubsets subsets).lookup q = some qs ↔ (q, qs) ∈ subsets := by
  rw [lookup_eq_some_iff_mem pairwise_arrangeSubsets, mem_arrangeSubsets hkeys hsets]

/-- The sets that are kept are in order. -/
theorem ascending_of_mem_arrangeSubsets (h : (q, qs) ∈ arrangeSubsets subsets) : Ascending qs := by
  refine List.foldlRecOn subsets _ (motive := fun m : TreeMap State (List State) compare =>
    ∀ q qs, m[q]? = some qs → Ascending qs) ?_ ?_ q qs
      (TreeMap.mem_toList_iff_getElem?_eq_some.1 h)
  · simp
  · intro m hm x _ q qs hq
    rw [TreeMap.getElem?_insert] at hq
    split at hq
    · exact Option.some.inj hq ▸ Ascending.ascending_ofList _
    · exact hm q qs hq

/-- Sets are listed by ascending states, at most one for each state, and each set is in order. -/
structure IsArranged (subsets : List (State × List State)) : Prop where
  states_ascending : subsets.Pairwise fun x y => x.1 < y.1
  sets_ascending : ∀ x ∈ subsets, Ascending x.2

theorem isArranged_arrangeSubsets : IsArranged (arrangeSubsets subsets) where
  states_ascending := TreeMap.ordered_keys_toList.imp Int.compare_eq_lt.1
  sets_ascending _ hx := ascending_of_mem_arrangeSubsets hx

/-- Sets in order are kept as they are. -/
theorem IsArranged.arrangeSubsets_eq (h : IsArranged subsets) :
    arrangeSubsets subsets = subsets := by
  have hkeys : subsets.Pairwise fun x y => x.1 ≠ y.1 :=
    h.states_ascending.imp fun hlt => Int.ne_of_lt hlt
  have hmem : ∀ x, x ∈ arrangeSubsets subsets ↔ x ∈ subsets :=
    fun _ => mem_arrangeSubsets hkeys h.sets_ascending
  have hperm : (arrangeSubsets subsets).Perm subsets :=
    (List.perm_ext_iff_of_nodup (.of_map Prod.fst (List.pairwise_map.2 pairwise_arrangeSubsets))
      (.of_map Prod.fst (List.pairwise_map.2 hkeys))).2 hmem
  exact hperm.eq_of_pairwise (fun x y _ _ hxy hyx => absurd hxy (Int.not_lt.2 (Int.le_of_lt hyx)))
    isArranged_arrangeSubsets.states_ascending h.states_ascending

end DFA

namespace NFA

variable {n : NFA} {s t : State} {a : Symbol} {w : Word} {qs : List State} {alphabet : List Symbol}
  {complete : Bool} {i : Nat}

section

variable (h : n.IsValid)

include h

/-- The sets that are found are in order. -/
theorem ascending_of_key? (hi : (n.subsets alphabet complete).found.key? i = some qs) :
    Ascending qs := by
  have hb := subsets_isBreadthFirst h alphabet complete
  by_cases hi0 : i = 0
  · rw [hi0, hb.start_key] at hi
    exact Option.some.inj hi ▸ ascending_reach _ _ _
  · obtain ⟨p, a, -, harc, -⟩ :=
      hb.foundBy i (Numbering.lt_size_of_key? hi) (Nat.pos_of_ne_zero hi0)
    obtain ⟨ps, qs', -, hqs', hm⟩ := hb.arc p a i harc
    obtain rfl := Option.some.inj (hi.symm.trans hqs')
    obtain ⟨-, hstep, -⟩ := mem_subsetMoves.1 hm
    exact hstep ▸ ascending_reach _ _ _

/-- A state of the deterministic automaton stands for the set that has its number. -/
theorem lookup_determinize_subsets : (n.determinize alphabet complete).subsets.lookup s = some qs ↔
    ∃ i, (n.subsets alphabet complete).found.key? i = some qs ∧ Int.ofNat i = s := by
  have hsubsets : (n.determinize alphabet complete).subsets = DFA.arrangeSubsets
    ((n.subsets alphabet complete).found.keys.toList.mapIdx fun i qs => (Int.ofNat i, qs)) := rfl
  rw [hsubsets, DFA.lookup_arrangeSubsets, mem_mapIdx_keys]
  · refine List.pairwise_iff_getElem.2 fun i j hi hj hij heq => ?_
    simp only [List.getElem_mapIdx] at heq
    exact Nat.ne_of_lt hij (Int.ofNat_inj.1 heq)
  · rintro ⟨s, qs⟩ hx
    obtain ⟨i, hi, -⟩ := mem_mapIdx_keys.1 hx
    exact ascending_of_key? h hi

/-! ## Runs -/

/-- A state has a move under each symbol that leads its set to a set that counts. -/
theorem exists_determinize_delta_iff (hi : (n.subsets alphabet complete).found.key? i = some qs) :
    (∃ s, (n.determinize alphabet complete).delta (Int.ofNat i) a = some s) ↔
      (a ∈ n.alphabet ∨ a ∈ alphabet) ∧ (n.step qs (some a) = [] → complete = true) := by
  have hb := subsets_isBreadthFirst h alphabet complete
  have hsymbol : a ∈ Ascending.ofList (n.alphabet ++ alphabet) ↔ a ∈ n.alphabet ∨ a ∈ alphabet := by
    rw [Ascending.mem_ofList, List.mem_append]
  rw [← hsymbol]
  constructor
  · rintro ⟨s, hs⟩
    obtain ⟨i', j, harc, hi', -⟩ := (determinize_delta_eq_some_iff h).1 hs
    obtain rfl := Int.ofNat_inj.1 hi'
    obtain ⟨qs', rs, hqs, -, hm⟩ := hb.arc _ _ _ harc
    obtain rfl := Option.some.inj (hi.symm.trans hqs)
    obtain ⟨ha, rfl, hcounts⟩ := mem_subsetMoves.1 hm
    exact ⟨ha, hcounts⟩
  · rintro ⟨ha, hcounts⟩
    obtain ⟨j, -, harc⟩ := hb.closed i qs hi (a, _) (mem_subsetMoves.2 ⟨ha, rfl, hcounts⟩)
    exact ⟨Int.ofNat j, (determinize_delta_eq_some_iff h).2 ⟨i, j, harc, rfl, rfl⟩⟩

/-- A run ends in the state of the set in which the simulation ends. -/
theorem key?_of_determinize_runFrom (hi : (n.subsets alphabet complete).found.key? i = some qs)
    (hs : (n.determinize alphabet complete).runFrom (Int.ofNat i) w = some s) :
    ∃ j, (n.subsets alphabet complete).found.key? j = some ((w.map some).foldl n.step qs) ∧
      Int.ofNat j = s := by
  induction w generalizing i qs with
  | nil => exact ⟨i, hi, Option.some.inj hs⟩
  | cons a w ih =>
    obtain ⟨r, hr, hs⟩ := Option.bind_eq_some_iff.1 hs
    obtain ⟨j, hj, rfl⟩ := key?_of_determinize_delta h hi hr
    exact ih hj hs

/-- There is a run as long as the set does not become empty. The complete automaton runs on with the
empty set, but only on symbols that it knows. -/
theorem exists_determinize_runFrom_iff
    (hi : (n.subsets alphabet complete).found.key? i = some qs) (hqs : qs = [] → complete = true) :
    (∃ s, (n.determinize alphabet complete).runFrom (Int.ofNat i) w = some s) ↔
      (w.map some).foldl n.step qs ≠ [] ∨
        complete = true ∧ ∀ a ∈ w, a ∈ n.alphabet ∨ a ∈ alphabet := by
  induction w generalizing i qs with
  | nil =>
    refine iff_of_true ⟨_, rfl⟩ ?_
    by_cases hempty : qs = []
    · exact .inr ⟨hqs hempty, by simp⟩
    · exact .inl hempty
  | cons a w ih =>
    rw [List.map_cons, List.foldl_cons, List.forall_mem_cons, DFA.runFrom_cons]
    have hdelta := exists_determinize_delta_iff (a := a) h hi
    cases hs : (n.determinize alphabet complete).delta (Int.ofNat i) a with
    | some s =>
      obtain ⟨ha, hcounts⟩ := hdelta.1 ⟨s, hs⟩
      obtain ⟨j, hj, rfl⟩ := key?_of_determinize_delta h hi hs
      rw [Option.bind_some, ih hj hcounts, and_iff_right ha]
    | none =>
      rw [step_eq_nil_of_determinize_delta h hi hs, foldl_step_nil]
      refine iff_of_false (by simp) ?_
      rintro (hne | ⟨hcomplete, ha, -⟩)
      · exact hne rfl
      · obtain ⟨s, hs'⟩ := hdelta.2 ⟨ha, fun _ => hcomplete⟩
        rw [hs] at hs'
        cases hs'

/-! ## States and their sets -/

/-- The state to which a word leads stands for the set in which the simulation ends. -/
theorem lookup_of_determinize_runFrom (hs : (n.determinize alphabet complete).runFrom
      (n.determinize alphabet complete).start w = some s) :
    (n.determinize alphabet complete).subsets.lookup s = some (n.run (w.map some)) :=
  (lookup_determinize_subsets h).2
    (key?_of_determinize_runFrom h (subsets_isBreadthFirst h alphabet complete).start_key hs)

theorem exists_determinize_run_iff : (∃ s, (n.determinize alphabet complete).runFrom
      (n.determinize alphabet complete).start w = some s) ↔
    n.run (w.map some) ≠ [] ∨ complete = true ∧ ∀ a ∈ w, a ∈ n.alphabet ∨ a ∈ alphabet :=
  exists_determinize_runFrom_iff h (subsets_isBreadthFirst h alphabet complete).start_key
    fun hempty => absurd hempty (List.ne_nil_of_mem n.start_mem_closure)

theorem exists_lookup_determinize_subsets (hs : s ∈ (n.determinize alphabet complete).states) :
    ∃ qs, (n.determinize alphabet complete).subsets.lookup s = some qs := by
  obtain ⟨i, hi, rfl⟩ := mem_determinize_states.1 hs
  obtain ⟨qs, hqs⟩ := Numbering.exists_key?_of_lt_size hi
  exact ⟨qs, (lookup_determinize_subsets h).2 ⟨i, hqs, rfl⟩⟩

/-- Each set has one state at most. -/
theorem eq_of_lookup_determinize_subsets
    (hs : (n.determinize alphabet complete).subsets.lookup s = some qs)
    (ht : (n.determinize alphabet complete).subsets.lookup t = some qs) : s = t := by
  have hproper := (subsets_isBreadthFirst h alphabet complete).proper
  obtain ⟨i, hi, rfl⟩ := (lookup_determinize_subsets h).1 hs
  obtain ⟨j, hj, rfl⟩ := (lookup_determinize_subsets h).1 ht
  have hij : some i = some j := ((hproper qs i).2 hi).symm.trans ((hproper qs j).2 hj)
  rw [Option.some.inj hij]

/-- The words that lead to the state of a set that is not empty are those that lead to the set. -/
theorem determinize_runFrom_eq_some_iff
    (hs : (n.determinize alphabet complete).subsets.lookup s = some qs) (hqs : qs ≠ []) :
    (n.determinize alphabet complete).runFrom (n.determinize alphabet complete).start w = some s ↔
      n.run (w.map some) = qs := by
  constructor
  · intro hw
    exact Option.some.inj ((lookup_of_determinize_runFrom h hw).symm.trans hs)
  · intro hw
    have hrun : ∃ t, (n.determinize alphabet complete).runFrom
        (n.determinize alphabet complete).start w = some t :=
      (exists_determinize_run_iff h).2 (.inl (hw ▸ hqs))
    obtain ⟨t, ht⟩ := hrun
    have hlookup := lookup_of_determinize_runFrom h ht
    rw [hw] at hlookup
    rw [ht, eq_of_lookup_determinize_subsets h hlookup hs]

end

/-- After a word, the state of the deterministic automaton stands for the set of states in which the
other automaton is. There is a run on the word if this set is not empty, or if the automaton is
complete and knows all symbols of the word. Both automata accept the same words. -/
theorem determinize_simulates (n : NFA) (h : n.IsValid) (alphabet : List Symbol) (complete : Bool)
    (w : Word) :
    let d := n.determinize alphabet complete
    (∀ s, d.runFrom d.start w = some s → d.subsets.lookup s = some (n.run (w.map some))) ∧
      ((∃ s, d.runFrom d.start w = some s) ↔ n.run (w.map some) ≠ [] ∨
        complete = true ∧ ∀ a ∈ w, a ∈ n.alphabet ∨ a ∈ alphabet) ∧
      d.accepts w = n.accepts w := by
  intro d
  exact ⟨fun _ hs => lookup_of_determinize_runFrom h hs, exists_determinize_run_iff h,
    determinize_accepts h⟩

/-- An automaton with a cycle of silent moves and with a state that cannot be reached. -/
def cyclic : NFA :=
  ofParts [5, -2, 9, 30] 5 [9]
    [⟨5, none, -2⟩, ⟨-2, none, 5⟩, ⟨-2, some "a", 9⟩, ⟨30, some "a", 5⟩] []

theorem cyclic_isValid : cyclic.IsValid :=
  ofParts_isValid (by decide) (by decide) (by decide)

/-- The complete automaton goes on after the set of states has become empty. -/
theorem determinize_simulates_cyclic : cyclic.IsValid ∧
    let d := cyclic.determinize ["b"] true
    (∀ s, d.runFrom d.start ["a", "b"] = some s →
        d.subsets.lookup s = some (cyclic.run [some "a", some "b"])) ∧
      ((∃ s, d.runFrom d.start ["a", "b"] = some s) ↔ cyclic.run [some "a", some "b"] ≠ [] ∨
        true = true ∧ ∀ a ∈ ["a", "b"], a ∈ cyclic.alphabet ∨ a ∈ ["b"]) ∧
      d.accepts ["a", "b"] = cyclic.accepts ["a", "b"] :=
  ⟨cyclic_isValid, determinize_simulates cyclic cyclic_isValid ["b"] true ["a", "b"]⟩

end NFA

end RegularLanguage
