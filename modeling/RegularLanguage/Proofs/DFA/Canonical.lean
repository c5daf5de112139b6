import RegularLanguage.Proofs.DFA.Correspondence
import RegularLanguage.Proofs.DFA.Shortlex
/-!
# One automaton for each language

Minimizing keeps states in the order of the first words that lead to them. In minimal automata for
one language the same words lead to corresponding states, so states that are numbered in this order
have the same numbers (`IsCanonical.sameParts_iff`).
-/

namespace RegularLanguage.DFA

variable {d e : DFA} {p : Partition} {q q' r r' : State} {w : Word}

/-! ## Minimizing keeps the order of states -/

theorem trim_isShortlex (h : d.IsValid) (hs : d.IsShortlex) : d.trim.IsShortlex := by
  intro q hq
  by_cases hstart : q = d.start
  · exact ⟨[], hstart ▸ isFirstWord_nil⟩
  · obtain ⟨⟨w, hw⟩, hlive⟩ := (mem_trim_states h).1 hq
    obtain ⟨u, hu, hleast⟩ := hs q (h.mem_of_runFrom h.start_mem hw)
    refine ⟨u, ?_, fun v r hv hqr => hleast v r (runFrom_of_trim h hv) hqr⟩
    exact (trim_runFrom_eq_some_iff h (trim_isValid h).start_mem
      (hlive.resolve_left hstart)).2 hu

theorem quotient_isShortlex (h : d.IsValid) (hp : p.IsNumbered d.states) (hs : d.IsStable p.Same)
    (hshort : d.IsShortlex) : (d.quotient p.classes).IsShortlex := by
  have hstart := quotient_start h hp
  intro s hs'
  obtain ⟨i, hi, rfl⟩ := (mem_quotient_states h hp).1 hs'
  obtain ⟨u, hu, hleast⟩ := hshort _ (Partition.first_mem hp hi)
  refine ⟨u, ?_, fun v t hv hit => ?_⟩
  · rw [quotient_runFrom h hp hs hstart, hu]
    exact Partition.state?_of_index? (Partition.index?_first hp hi)
  · rw [quotient_runFrom h hp hs hstart] at hv
    obtain ⟨r, hr, ht⟩ := Option.bind_eq_some_iff.1 hv
    obtain ⟨j, hj, rfl⟩ := Partition.state?_eq_some_iff.1 ht
    exact hleast v r hr
      (Partition.first_le_of_le hp h.states_ascending (Int.ofNat_le.1 hit) hj)

theorem minimize_isShortlex (h : d.IsValid) (hshort : d.IsShortlex) : d.minimize.IsShortlex := by
  obtain ⟨p, hp, hs, -, hmin⟩ := exists_minimize_eq h
  exact hmin ▸ quotient_isShortlex (trim_isValid h) hp hs (trim_isShortlex h hshort)

theorem exists_minimize_states_eq (h : d.IsValid) :
    ∃ k, d.minimize.states = (List.range k).map Int.ofNat := by
  obtain ⟨p, hp, -, -, hmin⟩ := exists_minimize_eq h
  exact hmin ▸ ⟨p.count, quotient_states (trim_isValid h) hp⟩

/-- A class whose members lead to states that accept something leads to such a class. -/
theorem minimize_movesAreLive (h : d.IsValid) (hlive : d.trim.MovesAreLive) :
    d.minimize.MovesAreLive := by
  obtain ⟨p, hp, hs, -, hmin⟩ := exists_minimize_eq h
  have htv := trim_isValid h
  intro s a t hst
  rw [hmin] at hst ⊢
  obtain ⟨i, hi, rfl⟩ := (mem_quotient_states htv hp).1
    ((quotient_isValid htv hp).mem_of_delta hst).1
  have hfirst := Partition.state?_of_index? (Partition.index?_first hp hi)
  rw [quotient_delta htv hp hs hfirst] at hst
  obtain ⟨r, hr, hrt⟩ := Option.bind_eq_some_iff.1 hst
  obtain ⟨w, hw⟩ := hlive _ a r hr
  exact ⟨w, by rw [quotient_acceptsFrom htv hp hs hrt]; exact hw⟩

/-- A minimal automaton without moves that lead nowhere, whose states are numbered from nought in
the order of the first words that lead to them. -/
structure IsCanonical (d : DFA) : Prop extends d.IsMinimal where
  live_of_delta : ∀ q a r, d.delta q a = some r → d.IsLive r
  shortlex : d.IsShortlex
  states_eq : ∃ k, d.states = (List.range k).map Int.ofNat

/-- Minimizing an automaton whose states are in order yields the canonical automaton of its
language, if trimming leaves no move that leads nowhere. -/
theorem minimize_isCanonical_of_movesAreLive (h : d.IsValid) (hshort : d.IsShortlex)
    (hlive : d.trim.MovesAreLive) : d.minimize.IsCanonical :=
  ⟨minimize_isMinimal h, minimize_movesAreLive h hlive, minimize_isShortlex h hshort,
    exists_minimize_states_eq h⟩

/-- Only the start can be left without accepting anything, and it is not entered again. -/
theorem minimize_isCanonical (h : d.IsValid) (hshort : d.IsShortlex)
    (hstart : ∀ q a, d.delta q a ≠ some d.start) : d.minimize.IsCanonical := by
  refine minimize_isCanonical_of_movesAreLive h hshort fun q a r hr => ?_
  obtain ⟨hr', -, hkept⟩ := (trim_delta_eq_some_iff h).1 hr
  exact (trim_isTrim h).live r hkept fun he => hstart q a (he ▸ hr')

/-- Where some word is accepted, the start may be entered again. -/
theorem minimize_isCanonical_of_accepts (h : d.IsValid) (hshort : d.IsShortlex)
    (hw : d.accepts w = true) : d.minimize.IsCanonical :=
  minimize_isCanonical_of_movesAreLive h hshort
    ((trim_isTrim h).movesAreLive ⟨w, (trim_accepts h).trans hw⟩)

/-! ## Corresponding states have the same number -/

theorem IsCanonical.agrees (hd : d.IsCanonical) (he : e.IsCanonical)
    (h : ∀ w, d.accepts w = e.accepts w) : d.Agrees e :=
  MovesAreLive.agrees h hd.live_of_delta he.live_of_delta

section

variable (hd : d.IsCanonical) (he : e.IsCanonical) (h : d.Agrees e)

include hd he h

/-- The first words to states are the same in both automata, and so is their order. -/
theorem Corresponds.lt_of_lt (hqr : Corresponds d e q r) (hqr' : Corresponds d e q' r')
    (hlt : q < q') : r < r' := by
  refine Int.not_le.1 fun hle => ?_
  obtain ⟨u, hu, hleast⟩ := hd.shortlex q (hqr.mem hd.toIsValid)
  obtain ⟨u', hu', hleast'⟩ := he.shortlex r' (hqr'.symm.mem he.toIsValid)
  have hq' : d.runFrom d.start u' = some q' := hqr'.symm.runFrom h.symm hd.toIsMinimal hu'
  have hr : e.runFrom e.start u = some r := hqr.runFrom h he.toIsMinimal hu
  rcases hleast u' q' hq' (Int.le_of_lt hlt) with rfl | hbefore
  · rw [hu] at hq'
    exact Int.ne_of_lt hlt (Option.some.inj hq')
  · rcases hleast' u r hr hle with rfl | hbefore'
    · rw [hu] at hq'
      exact Int.ne_of_lt hlt (Option.some.inj hq')
    · exact hbefore.asymm hbefore'

/-- The states below a state correspond to as many states below the corresponding one. -/
theorem Corresponds.le (hqr : Corresponds d e q r) : q ≤ r := by
  obtain ⟨k, hk⟩ := hd.states_eq
  obtain ⟨l, hl⟩ := he.states_eq
  have hnat : ∀ i j : Nat, Corresponds d e (Int.ofNat i) (Int.ofNat j) → i ≤ j := by
    intro i
    induction i with
    | zero => exact fun j _ => Nat.zero_le j
    | succ i ih =>
      intro j hij
      have hi : Int.ofNat i ∈ d.states := by
        have hmem := hij.mem hd.toIsValid
        rw [hk, List.mem_map] at hmem ⊢
        obtain ⟨i', hi', heq⟩ := hmem
        obtain rfl := Int.ofNat_inj.1 heq
        exact ⟨i, List.mem_range.2 (Nat.lt_of_succ_lt (List.mem_range.1 hi')), rfl⟩
      obtain ⟨s, hs⟩ := h.exists_corresponds (hd.reachable _ hi)
      obtain ⟨t, ht, rfl⟩ := List.mem_map.1 (hl ▸ hs.symm.mem he.toIsValid)
      have hlt := hs.lt_of_lt hd he h hij (Int.ofNat_lt.2 (Nat.lt_succ_self i))
      exact Nat.lt_of_le_of_lt (ih t hs) (Int.ofNat_lt.1 hlt)
  obtain ⟨i, -, rfl⟩ := List.mem_map.1 (hk ▸ hqr.mem hd.toIsValid)
  obtain ⟨j, -, rfl⟩ := List.mem_map.1 (hl ▸ hqr.symm.mem he.toIsValid)
  exact Int.ofNat_le.2 (hnat i j hqr)

theorem Corresponds.eq (hqr : Corresponds d e q r) : q = r :=
  Int.le_antisymm (hqr.le hd he h) (hqr.symm.le he hd h.symm)

/-- In the one automaton a word leads where it leads in the other. -/
theorem runFrom_start_eq (hq : d.runFrom d.start w = some q) : e.runFrom e.start w = some q := by
  obtain ⟨r, hr⟩ := (h.run_iff w).1 ⟨q, hq⟩
  obtain rfl : q = r := Corresponds.eq hd he h ⟨w, hq, hr⟩
  exact hr

theorem state_mem (hq : q ∈ d.states) : q ∈ e.states := by
  obtain ⟨w, hw⟩ := hd.reachable q hq
  exact he.toIsValid.mem_of_runFrom he.start_mem (runFrom_start_eq hd he h hw)

theorem final_mem (hq : q ∈ d.final) : q ∈ e.final := by
  obtain ⟨w, hw⟩ := hd.reachable q (hd.toIsValid.final_mem q hq)
  have hqq : Corresponds d e q q := ⟨w, hw, runFrom_start_eq hd he h hw⟩
  exact (hqq.final_iff h.accepts_eq).1 hq

theorem edge_mem {x : Edge Symbol} (hx : x ∈ d.edges) : x ∈ e.edges := by
  obtain ⟨w, hw⟩ := hd.reachable _ (hd.source_mem x hx)
  have hwa : d.runFrom d.start (w ++ [x.label]) = some x.target :=
    runFrom_concat_eq_some_iff.2 ⟨_, hw, hd.toIsValid.delta_eq_some_iff.2 hx⟩
  obtain ⟨q, hq, ha⟩ := runFrom_concat_eq_some_iff.1 (runFrom_start_eq hd he h hwa)
  obtain rfl := Option.some.inj ((runFrom_start_eq hd he h hw).symm.trans hq)
  exact he.toIsValid.delta_eq_some_iff.1 ha

end

/-! ## Automata with the same parts -/

/-- The automata have the same states, start, final states and moves. They may differ in symbols of
their alphabets that are on no edge. -/
structure SameParts (d e : DFA) : Prop where
  states_eq : d.states = e.states
  start_eq : d.start = e.start
  final_eq : d.final = e.final
  edges_eq : d.edges = e.edges

theorem SameParts.accepts_eq (h : d.SameParts e) : d.accepts w = e.accepts w := by
  have hmoves : d.outgoing = e.outgoing := by
    rw [Automaton.outgoing, Automaton.outgoing, h.edges_eq]
  rw [accepts, accepts, acceptsFrom, acceptsFrom, DFA.runFrom, DFA.runFrom, hmoves, h.start_eq,
    h.final_eq]

/-- Canonical automata are the same exactly when they accept the same words. -/
theorem IsCanonical.sameParts_iff (hd : d.IsCanonical) (he : e.IsCanonical) :
    d.SameParts e ↔ ∀ w, d.accepts w = e.accepts w := by
  refine ⟨fun h w => h.accepts_eq, fun haccepts => ?_⟩
  have h := hd.agrees he haccepts
  have h' := h.symm
  refine ⟨?_, (Option.some.inj (runFrom_start_eq hd he h (w := []) rfl)).symm, ?_, ?_⟩
  · exact Ascending.ext hd.states_ascending he.states_ascending fun q =>
      ⟨state_mem hd he h, state_mem he hd h'⟩
  · exact Ascending.ext hd.final_ascending he.final_ascending fun q =>
      ⟨final_mem hd he h, final_mem he hd h'⟩
  · exact Ascending.ext hd.edges_ascending he.edges_ascending fun x =>
      ⟨edge_mem hd he h, edge_mem he hd h'⟩

end RegularLanguage.DFA
