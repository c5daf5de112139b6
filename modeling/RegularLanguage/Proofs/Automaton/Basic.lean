import RegularLanguage.DFA.Basic
import RegularLanguage.Proofs.Search.Reach
/-!
# Parts and moves of automata

Putting parts in order makes a proper automaton as soon as start, final states and ends of edges
are states. Arranging the moves of an automaton for running it, forwards or backwards, neither adds
nor loses an edge.
-/

namespace RegularLanguage

open Std

theorem Ascending.nodup {α : Type} [Ord α] [ReflOrd α] {xs : List α} (h : Ascending xs) :
    xs.Nodup := by
  refine h.imp fun hab => ?_
  rintro rfl
  simp at hab

theorem Ascending.ofList_congr {α : Type} [Ord α] [TransOrd α] [LawfulEqOrd α] {xs ys : List α}
    (h : ∀ a, a ∈ xs ↔ a ∈ ys) : Ascending.ofList xs = Ascending.ofList ys :=
  Ascending.ext (Ascending.ascending_ofList xs) (Ascending.ascending_ofList ys)
    fun a => Ascending.mem_ofList.trans ((h a).trans Ascending.mem_ofList.symm)

/-- States that are numbered from nought on are in order. -/
theorem ascending_map_ofNat_range (k : Nat) : Ascending ((List.range k).map Int.ofNat) :=
  List.pairwise_map.2 (List.pairwise_lt_range.imp fun hab =>
    Int.compare_eq_lt.2 (Int.ofNat_lt.2 hab))

theorem Edge.exists_iff {α : Type} {p : Edge α → Prop} :
    (∃ e, p e) ↔ ∃ q l r, p ⟨q, l, r⟩ := by
  constructor
  · rintro ⟨⟨q, l, r⟩, he⟩
    exact ⟨q, l, r, he⟩
  · rintro ⟨q, l, r, he⟩
    exact ⟨⟨q, l, r⟩, he⟩

namespace Automaton

variable {α : Type} [Ord α] [TransOrd α] [LawfulEqOrd α]

theorem ofParts_isProper {states : List State} {start : State} {final : List State}
    {edges : List (Edge α)} {alphabet : List Symbol} (hstart : start ∈ states)
    (hfinal : ∀ q ∈ final, q ∈ states)
    (hedges : ∀ e ∈ edges, e.source ∈ states ∧ e.target ∈ states) :
    (ofParts states start final edges alphabet).IsProper where
  states_ascending := Ascending.ascending_ofList _
  final_ascending := Ascending.ascending_ofList _
  edges_ascending := Ascending.ascending_ofList _
  alphabet_ascending := Ascending.ascending_ofList _
  start_mem := Ascending.mem_ofList.2 hstart
  final_mem q hq := Ascending.mem_ofList.2 (hfinal q (Ascending.mem_ofList.1 hq))
  source_mem e he := Ascending.mem_ofList.2 (hedges e (Ascending.mem_ofList.1 he)).1
  target_mem e he := Ascending.mem_ofList.2 (hedges e (Ascending.mem_ofList.1 he)).2

/-- Proper automata with the same start and the same members in all other parts are equal. -/
theorem IsProper.ext {a b : Automaton α} (ha : a.IsProper) (hb : b.IsProper)
    (hstates : ∀ q, q ∈ a.states ↔ q ∈ b.states) (hstart : a.start = b.start)
    (hfinal : ∀ q, q ∈ a.final ↔ q ∈ b.final)
    (hedges : ∀ p l q, ⟨p, l, q⟩ ∈ a.edges ↔ ⟨p, l, q⟩ ∈ b.edges)
    (halphabet : ∀ s, s ∈ a.alphabet ↔ s ∈ b.alphabet) : a = b := by
  have h1 : a.states = b.states := Ascending.ext ha.states_ascending hb.states_ascending hstates
  have h2 : a.final = b.final := Ascending.ext ha.final_ascending hb.final_ascending hfinal
  have h3 : a.edges = b.edges :=
    Ascending.ext ha.edges_ascending hb.edges_ascending fun ⟨p, l, q⟩ => hedges p l q
  have h4 : a.alphabet = b.alphabet :=
    Ascending.ext ha.alphabet_ascending hb.alphabet_ascending halphabet
  cases a
  cases b
  simp_all

omit [Ord α] [TransOrd α] [LawfulEqOrd α]

variable {a : Automaton α} {q r : State} {l : α}

@[simp]
theorem mem_outgoing : (l, r) ∈ a.outgoing.values q ↔ ⟨q, l, r⟩ ∈ a.edges := by
  rw [outgoing, Grouping.mem_values_ofPairs, List.mem_map]
  constructor
  · rintro ⟨e, he, heq⟩
    cases heq
    exact he
  · exact fun h => ⟨_, h, rfl⟩

@[simp]
theorem mem_forward : r ∈ a.forward.successors.values q ↔ ∃ l, ⟨q, l, r⟩ ∈ a.edges := by
  rw [forward, Digraph.mem_successors, List.mem_map]
  constructor
  · rintro ⟨e, he, heq⟩
    cases heq
    exact ⟨e.label, he⟩
  · exact fun ⟨l, h⟩ => ⟨_, h, rfl⟩

@[simp]
theorem mem_backward : r ∈ a.backward.successors.values q ↔ ∃ l, ⟨r, l, q⟩ ∈ a.edges := by
  rw [backward, Digraph.mem_successors, List.mem_map]
  constructor
  · rintro ⟨e, he, heq⟩
    cases heq
    exact ⟨e.label, he⟩
  · exact fun ⟨l, h⟩ => ⟨_, h, rfl⟩

theorem leads_backward_iff : Leads a.backward.successors.values q r ↔
    Leads a.forward.successors.values r q :=
  ⟨.reverse fun _ _ h => mem_forward.2 (mem_backward.1 h),
    .reverse fun _ _ h => mem_backward.2 (mem_forward.1 h)⟩

theorem mem_reachableFrom {sources : List State} : q ∈ a.reachableFrom sources ↔
    ∃ p ∈ sources, Leads a.forward.successors.values p q :=
  Digraph.mem_reach

theorem mem_productive : q ∈ a.productive ↔
    ∃ r ∈ a.final, Leads a.forward.successors.values q r := by
  have hmem : q ∈ a.productive ↔ ∃ r ∈ a.final, Leads a.backward.successors.values r q :=
    Digraph.mem_reach
  simpa only [leads_backward_iff] using hmem

end Automaton

theorem NFA.ofParts_isValid {states : List State} {start : State} {final : List State}
    {edges : List (Edge Label)} {alphabet : List Symbol} (hstart : start ∈ states)
    (hfinal : ∀ q ∈ final, q ∈ states)
    (hedges : ∀ e ∈ edges, e.source ∈ states ∧ e.target ∈ states) :
    (NFA.ofParts states start final edges alphabet).IsValid where
  toIsProper := Automaton.ofParts_isProper hstart hfinal hedges
  label_mem e he a ha := by
    have he' := Ascending.mem_ofList.1 he
    exact Ascending.mem_ofList.2 (List.mem_append_left _ (List.mem_filterMap.2 ⟨e, he', ha⟩))

/-- The order in which the parts are given does not matter. -/
theorem NFA.ofParts_congr {states states' final final' : List State} {start : State}
    {edges edges' : List (Edge Label)} {alphabet : List Symbol}
    (hstates : ∀ q, q ∈ states ↔ q ∈ states') (hfinal : ∀ q, q ∈ final ↔ q ∈ final')
    (hedges : ∀ p l q, ⟨p, l, q⟩ ∈ edges ↔ ⟨p, l, q⟩ ∈ edges') :
    NFA.ofParts states start final edges alphabet =
      NFA.ofParts states' start final' edges' alphabet := by
  have hmem : ∀ e, e ∈ edges ↔ e ∈ edges' := fun ⟨p, l, q⟩ => hedges p l q
  have hlabels : ∀ a, a ∈ edges.filterMap Edge.label ++ alphabet ↔
      a ∈ edges'.filterMap Edge.label ++ alphabet := by
    simp [hmem]
  rw [NFA.ofParts, NFA.ofParts, Automaton.ofParts, Automaton.ofParts,
    Ascending.ofList_congr hstates, Ascending.ofList_congr hfinal, Ascending.ofList_congr hmem,
    Ascending.ofList_congr hlabels]

/-- What is asked of the parts may be asked of the automaton. -/
theorem NFA.ofParts_isValid_of_mem {states : List State} {start : State} {final : List State}
    {edges : List (Edge Label)} {alphabet : List Symbol} {n : NFA}
    (hn : NFA.ofParts states start final edges alphabet = n) (hstart : n.start ∈ n.states)
    (hfinal : ∀ q ∈ n.final, q ∈ n.states)
    (hedges : ∀ e ∈ n.edges, e.source ∈ n.states ∧ e.target ∈ n.states) : n.IsValid := by
  subst hn
  exact NFA.ofParts_isValid (Ascending.mem_ofList.1 hstart)
    (fun q hq => Ascending.mem_ofList.1 (hfinal q (Ascending.mem_ofList.2 hq)))
    fun e he => (hedges e (Ascending.mem_ofList.2 he)).imp Ascending.mem_ofList.1
      Ascending.mem_ofList.1

/-- The symbols that are given are all that there are if those in use are among them. -/
theorem NFA.mem_ofParts_alphabet {states : List State} {start : State} {final : List State}
    {edges : List (Edge Label)} {alphabet : List Symbol} {n : NFA} {a : Symbol}
    (hn : NFA.ofParts states start final edges alphabet = n)
    (hlabel : ∀ e ∈ n.edges, ∀ a, e.label = some a → a ∈ alphabet) :
    a ∈ n.alphabet ↔ a ∈ alphabet := by
  have hused : a ∈ n.alphabet ↔ (∃ e ∈ n.edges, e.label = some a) ∨ a ∈ alphabet := by
    subst hn
    simp [NFA.ofParts, Automaton.ofParts]
  refine hused.trans (or_iff_right_of_imp ?_)
  rintro ⟨e, he, ha⟩
  exact hlabel e he a ha

theorem DFA.ofParts_isValid {states : List State} {start : State} {final : List State}
    {edges : List (Edge Symbol)} {alphabet : List Symbol} {subsets : List (State × List State)}
    (hstart : start ∈ states) (hfinal : ∀ q ∈ final, q ∈ states)
    (hedges : ∀ e ∈ edges, e.source ∈ states ∧ e.target ∈ states)
    (hunique : ∀ e ∈ edges, ∀ f ∈ edges, e.source = f.source → e.label = f.label →
      e.target = f.target) :
    (DFA.ofParts states start final edges alphabet subsets).IsValid where
  toIsProper := Automaton.ofParts_isProper hstart hfinal hedges
  label_mem e he := by
    have he' := Ascending.mem_ofList.1 he
    exact Ascending.mem_ofList.2 (List.mem_append_left _ (List.mem_map.2 ⟨e, he', rfl⟩))
  target_unique e he f hf :=
    hunique e (Ascending.mem_ofList.1 he) f (Ascending.mem_ofList.1 hf)

/-- Valid automata with the same start and the same members in all other parts are equal. -/
theorem DFA.IsValid.ext {d e : DFA} (hd : d.IsValid) (he : e.IsValid)
    (hstates : ∀ q, q ∈ d.states ↔ q ∈ e.states) (hstart : d.start = e.start)
    (hfinal : ∀ q, q ∈ d.final ↔ q ∈ e.final)
    (hedges : ∀ p a q, ⟨p, a, q⟩ ∈ d.edges ↔ ⟨p, a, q⟩ ∈ e.edges)
    (halphabet : ∀ a, a ∈ d.alphabet ↔ a ∈ e.alphabet) (hsubsets : d.subsets = e.subsets) :
    d = e := by
  have hparts : d.toAutomaton = e.toAutomaton :=
    hd.toIsProper.ext he.toIsProper hstates hstart hfinal hedges halphabet
  cases d
  cases e
  simp_all

/-- The symbols that are given are all that there are if those in use are among them. -/
theorem DFA.mem_ofParts_alphabet {states : List State} {start : State} {final : List State}
    {edges : List (Edge Symbol)} {alphabet : List Symbol} {subsets : List (State × List State)}
    {d : DFA} {a : Symbol} (hd : DFA.ofParts states start final edges alphabet subsets = d)
    (hlabel : ∀ e ∈ d.edges, e.label ∈ alphabet) : a ∈ d.alphabet ↔ a ∈ alphabet := by
  have hused : a ∈ d.alphabet ↔ (∃ e ∈ d.edges, e.label = a) ∨ a ∈ alphabet := by
    subst hd
    simp [DFA.ofParts, Automaton.ofParts]
  refine hused.trans (or_iff_right_of_imp ?_)
  rintro ⟨e, he, rfl⟩
  exact hlabel e he

/-- What is asked of the parts may be asked of the automaton. -/
theorem DFA.ofParts_isValid_of_mem {states : List State} {start : State} {final : List State}
    {edges : List (Edge Symbol)} {alphabet : List Symbol} {subsets : List (State × List State)}
    {d : DFA} (hd : DFA.ofParts states start final edges alphabet subsets = d)
    (hstart : d.start ∈ d.states) (hfinal : ∀ q ∈ d.final, q ∈ d.states)
    (hedges : ∀ e ∈ d.edges, e.source ∈ d.states ∧ e.target ∈ d.states)
    (hunique : ∀ e ∈ d.edges, ∀ f ∈ d.edges, e.source = f.source → e.label = f.label →
      e.target = f.target) : d.IsValid := by
  subst hd
  exact DFA.ofParts_isValid (Ascending.mem_ofList.1 hstart)
    (fun q hq => Ascending.mem_ofList.1 (hfinal q (Ascending.mem_ofList.2 hq)))
    (fun e he => (hedges e (Ascending.mem_ofList.2 he)).imp Ascending.mem_ofList.1
      Ascending.mem_ofList.1)
    fun e he f hf => hunique e (Ascending.mem_ofList.2 he) f (Ascending.mem_ofList.2 hf)

/-! ## Parts that are checked -/

section

variable {states : List State} {start : State} {final : List State} {edges : List (Edge Label)}
  {alphabet : List Symbol}

theorem NFA.fault?_eq_none (h : NFA.fault? states start final edges = none) :
    start ∈ states ∧ (∀ q ∈ final, q ∈ states) ∧
      ∀ e ∈ edges, e.source ∈ states ∧ e.target ∈ states := by
  classical
  simp only [NFA.fault?, TreeSet.contains_ofList] at h
  split at h
  · cases h
  · rename_i hstart
    split at h
    · cases h
    · rename_i hfinal
      refine ⟨by simpa using hstart, by simpa using hfinal, fun e he => ?_⟩
      have he' := List.findSome?_eq_none_iff.1 h e he
      split at he'
      · cases he'
      · rename_i hsource
        split at he'
        · cases he'
        · rename_i htarget
          refine ⟨by simpa using hsource, Classical.byContradiction fun hstray => htarget ?_⟩
          exact List.any_eq_true.2 ⟨e, List.mem_filter.2 ⟨he, by simpa using hstray⟩, by simp⟩

/-- Parts that are found to fit together form a valid automaton. -/
theorem NFA.build_isValid {n : NFA} (h : NFA.build states start final edges alphabet = .ok n) :
    n.IsValid := by
  unfold NFA.build at h
  split at h
  · cases h
  · rename_i hfault
    cases h
    obtain ⟨hstart, hfinal, hedges⟩ := NFA.fault?_eq_none hfault
    exact NFA.ofParts_isValid hstart hfinal hedges

theorem DFA.fault?_eq_none (h : DFA.fault? states start final edges = none) :
    start ∈ states ∧ (∀ q ∈ final, q ∈ states) ∧
      ∀ e ∈ edges, e.label ≠ none ∧ e.source ∈ states ∧ e.target ∈ states := by
  classical
  simp only [DFA.fault?, TreeSet.contains_ofList] at h
  split at h
  · cases h
  · rename_i hstart
    split at h
    · cases h
    · rename_i hfinal
      refine ⟨by simpa using hstart, by simpa using hfinal, fun e he => ?_⟩
      have he' := List.findSome?_eq_none_iff.1 h e he
      split at he'
      · cases he'
      · rename_i hlabel
        split at he'
        · cases he'
        · rename_i hsource
          split at he'
          · cases he'
          · rename_i htarget
            exact ⟨hlabel, by simpa using hsource, by simpa using htarget⟩

/-- Parts that are found to fit together form a valid automaton, if they give at most one move for
a state and a label. -/
theorem DFA.build_isValid {subsets : List (State × List State)} {d : DFA}
    (h : DFA.build states start final edges alphabet subsets = .ok d)
    (hunique : ∀ e ∈ edges, ∀ f ∈ edges, e.source = f.source → e.label = f.label →
      e.target = f.target) : d.IsValid := by
  unfold DFA.build at h
  split at h
  · cases h
  · rename_i hfault
    cases h
    obtain ⟨hstart, hfinal, hedges⟩ := DFA.fault?_eq_none hfault
    have hmove : ∀ e ∈ edges.filterMap fun e =>
          e.label.map fun a => (⟨e.source, a, e.target⟩ : Edge Symbol),
        ⟨e.source, some e.label, e.target⟩ ∈ edges := by
      intro e he
      obtain ⟨f, hf, hfe⟩ := List.mem_filterMap.1 he
      obtain ⟨a, ha, rfl⟩ := Option.map_eq_some_iff.1 hfe
      rwa [← ha]
    refine DFA.ofParts_isValid hstart hfinal (fun e he => (hedges _ (hmove e he)).2) ?_
    intro e he f hf hsource hlabel
    exact hunique _ (hmove e he) _ (hmove f hf) hsource (congrArg some hlabel)

theorem NFA.fault?_of_mem (hstart : start ∈ states) (hfinal : ∀ q ∈ final, q ∈ states)
    (hedges : ∀ e ∈ edges, e.source ∈ states ∧ e.target ∈ states) :
    NFA.fault? states start final edges = none := by
  classical
  have hstray : (edges.filter fun e => !states.contains e.target) = [] :=
    List.filter_eq_nil_iff.2 fun e he => by simp [(hedges e he).2]
  have hnone : ∀ e ∈ edges, (if !states.contains e.source then
      some (AutomatonError.unknownSource e.source) else none) = none := fun e he => by
    simp [(hedges e he).1]
  simp only [NFA.fault?, TreeSet.contains_ofList, hstray, List.any_nil, Bool.false_eq_true,
    if_false]
  rw [List.findSome?_eq_none_iff.2 hnone, if_neg (by simp [hstart]), if_neg (by simpa using hfinal)]

/-- An automaton is made of parts exactly if they fit together. -/
theorem NFA.build_eq_ok_iff {n : NFA} : NFA.build states start final edges alphabet = .ok n ↔
    (start ∈ states ∧ (∀ q ∈ final, q ∈ states) ∧
      ∀ e ∈ edges, e.source ∈ states ∧ e.target ∈ states) ∧
    NFA.ofParts states start final edges alphabet = n := by
  unfold NFA.build
  constructor
  · intro h
    split at h
    · cases h
    · rename_i hfault
      exact ⟨NFA.fault?_eq_none hfault, Except.ok.inj h⟩
  · rintro ⟨⟨hstart, hfinal, hedges⟩, rfl⟩
    rw [NFA.fault?_of_mem hstart hfinal hedges]

/-- The parts of a valid automaton are found to fit together. -/
theorem NFA.build_of_isValid (h : (NFA.ofParts states start final edges alphabet).IsValid) :
    NFA.build states start final edges alphabet =
      .ok (NFA.ofParts states start final edges alphabet) := by
  have hfault : NFA.fault? states start final edges = none :=
    NFA.fault?_of_mem (Ascending.mem_ofList.1 h.start_mem)
      (fun q hq => Ascending.mem_ofList.1 (h.final_mem q (Ascending.mem_ofList.2 hq)))
      fun e he => ⟨Ascending.mem_ofList.1 (h.source_mem e (Ascending.mem_ofList.2 he)),
        Ascending.mem_ofList.1 (h.target_mem e (Ascending.mem_ofList.2 he))⟩
  rw [NFA.build, hfault]

theorem DFA.fault?_of_mem (hstart : start ∈ states) (hfinal : ∀ q ∈ final, q ∈ states)
    (hedges : ∀ e ∈ edges, e.label ≠ none ∧ e.source ∈ states ∧ e.target ∈ states) :
    DFA.fault? states start final edges = none := by
  classical
  have hnone : ∀ e ∈ edges, (if e.label = none then some AutomatonError.silentMove
      else if !states.contains e.source then some (.unknownSource e.source)
      else if !states.contains e.target then some (.unknownTarget e.target)
      else none) = none := fun e he => by
    simp [hedges e he]
  simp only [DFA.fault?, TreeSet.contains_ofList]
  rw [List.findSome?_eq_none_iff.2 hnone, if_neg (by simp [hstart]), if_neg (by simpa using hfinal)]

/-- The parts of a valid deterministic automaton are found to fit together. -/
theorem DFA.build_of_isValid {moves : List (Edge Symbol)} {subsets : List (State × List State)}
    (h : (DFA.ofParts states start final moves alphabet subsets).IsValid) :
    DFA.build states start final (moves.map (Edge.relabel some)) alphabet subsets =
      .ok (DFA.ofParts states start final moves alphabet subsets) := by
  have hedges : ∀ e ∈ moves.map (Edge.relabel some),
      e.label ≠ none ∧ e.source ∈ states ∧ e.target ∈ states := by
    intro e he
    obtain ⟨f, hf, rfl⟩ := List.mem_map.1 he
    exact ⟨Option.some_ne_none _,
      Ascending.mem_ofList.1 (h.source_mem f (Ascending.mem_ofList.2 hf)),
      Ascending.mem_ofList.1 (h.target_mem f (Ascending.mem_ofList.2 hf))⟩
  have hfault : DFA.fault? states start final (moves.map (Edge.relabel some)) = none :=
    DFA.fault?_of_mem (Ascending.mem_ofList.1 h.start_mem)
      (fun q hq => Ascending.mem_ofList.1 (h.final_mem q (Ascending.mem_ofList.2 hq))) hedges
  have hmoves : ((moves.map (Edge.relabel some)).filterMap fun e =>
      e.label.map fun a => (⟨e.source, a, e.target⟩ : Edge Symbol)) = moves := by
    rw [List.filterMap_map]
    exact List.filterMap_some
  simp only [DFA.build, hfault, hmoves]

end

end RegularLanguage
