import RegularLanguage.Proofs.DFA.MinimalComplete
/-!
# Trimming and minimizing twice

What trimming leaves is reached and leads on in what is left, so trimming again takes nothing out
(`trim_keeps_useful_states`). A minimal automaton whose states are numbered from nought is left as
it is by minimizing: trimming takes nothing out of it, and its classes are single states that have
their own numbers (`IsMinimized.minimize_eq`). The state that completion adds accepts nothing, so
trimming takes it out again, and then it is added under the same number. An automaton that accepts
nothing ends in one that is made from the alphabet alone (`minimize_idempotent`).
-/

namespace RegularLanguage.DFA

variable {d e : DFA} {p : Partition} {q r : State} {a : Symbol} {w : Word} {i k : Nat}

/-! ## Trimming what is trimmed -/

theorem IsTrim.trim_eq (h : d.IsTrim) (hs : d.subsets = []) : d.trim = d := by
  have hv := h.toIsValid
  have hstates : ∀ q, q ∈ d.trim.states ↔ q ∈ d.states := by
    intro q
    rw [mem_trim_states hv]
    constructor
    · rintro ⟨⟨w, hw⟩, -⟩
      exact hv.mem_of_runFrom hv.start_mem hw
    · exact fun hq => ⟨h.reachable q hq, or_iff_not_imp_left.2 (h.live q hq)⟩
  refine (trim_isValid hv).ext hv hstates rfl (fun q => ?_) (fun q a r => ?_)
    (fun a => mem_trim_alphabet hv) hs.symm
  · rw [mem_trim_final, hstates]
    exact and_iff_left_of_imp (hv.final_mem q)
  · rw [← (trim_isValid hv).delta_eq_some_iff, ← hv.delta_eq_some_iff, trim_delta_eq_some_iff hv,
      hstates, hstates]
    refine and_iff_left_of_imp fun hr => ?_
    obtain ⟨hq, -, hr⟩ := hv.mem_of_delta hr
    exact ⟨hq, hr⟩

/-- Trimming keeps the words and is finished after once. What it leaves can be reached in what it
leaves, and it leads to a final state there; if no word is accepted, only the start is left. -/
theorem trim_keeps_useful_states (d : DFA) (h : d.IsValid) :
    (∀ w, d.trim.accepts w = d.accepts w) ∧
      (∀ q ∈ d.trim.states, ∃ w, d.trim.runFrom d.trim.start w = some q) ∧
      ((∀ q ∈ d.trim.states, ∃ w, ∃ r ∈ d.trim.final, d.trim.runFrom q w = some r) ∨
        (∀ w, d.accepts w = false) ∧ d.trim.start = d.start ∧ d.trim.states = [d.start] ∧
          d.trim.final = []) ∧
      d.trim.trim = d.trim := by
  have htrim := trim_isTrim h
  refine ⟨fun w => trim_accepts h, htrim.reachable, ?_, htrim.trim_eq rfl⟩
  rcases htrim.isLive_or_alone with hlive | ⟨hnone, halone, hfinal⟩
  · refine .inl fun q hq => ?_
    obtain ⟨w, hw⟩ := hlive q hq
    exact ⟨w, acceptsFrom_eq_true_iff.1 hw⟩
  · refine .inr ⟨fun w => ?_, rfl, halone, hfinal⟩
    rw [← trim_accepts h]
    exact hnone w

/-- One final state is not reached, and a state that is reached is never left for a final one. -/
def frayed : DFA :=
  ofParts [0, 1, 2, 3] 0 [1, 3] [⟨0, "a", 1⟩, ⟨0, "b", 2⟩, ⟨2, "a", 2⟩, ⟨3, "a", 0⟩] [] []

theorem frayed_isValid : frayed.IsValid := by
  have hbuild : build [0, 1, 2, 3] 0 [1, 3]
      [⟨0, some "a", 1⟩, ⟨0, some "b", 2⟩, ⟨2, some "a", 2⟩, ⟨3, some "a", 0⟩] [] [] =
        .ok frayed := by rfl
  exact build_isValid hbuild (by decide)

theorem trim_keeps_useful_states_frayed : frayed.IsValid ∧
    (∀ w, frayed.trim.accepts w = frayed.accepts w) ∧
      (∀ q ∈ frayed.trim.states, ∃ w, frayed.trim.runFrom frayed.trim.start w = some q) ∧
      ((∀ q ∈ frayed.trim.states, ∃ w, ∃ r ∈ frayed.trim.final,
          frayed.trim.runFrom q w = some r) ∨
        (∀ w, frayed.accepts w = false) ∧ frayed.trim.start = frayed.start ∧
          frayed.trim.states = [frayed.start] ∧ frayed.trim.final = []) ∧
      frayed.trim.trim = frayed.trim :=
  ⟨frayed_isValid, trim_keeps_useful_states frayed frayed_isValid⟩

example : frayed.trim.states = [0, 1] ∧ frayed.trim.edges = [⟨0, "a", 1⟩] := by decide

/-- Minimizing begins with trimming. -/
theorem minimize_congr (h : d.trim = e.trim) : d.minimize = e.minimize := by
  rw [minimize, minimize, equivalenceClasses, equivalenceClasses, h]

/-! ## Classes of one state -/

namespace Partition

/-- If every class has one member, states that are numbered from nought keep their numbers. -/
theorem index?_ofNat (h : p.IsNumbered ((List.range k).map Int.ofNat))
    (hsingle : ∀ q r, p.Same q r → q = r) (hi : i < k) : p.index? (Int.ofNat i) = some i := by
  induction i using Nat.strongRecOn with
  | ind i ih =>
    obtain ⟨j, hj⟩ := (h.mem_iff (Int.ofNat i)).1 (List.mem_map_of_mem (List.mem_range.2 hi))
    rcases Nat.lt_trichotomy j i with hji | rfl | hij
    · -- the state `j` has this number already
      have hsame := hsingle _ _ ⟨j, ih j hji (Nat.lt_trans hji hi), hj⟩
      exact absurd (Int.ofNat_inj.1 hsame) (Nat.ne_of_lt hji)
    · exact hj
    · -- a state before `i` would have the number `i`
      obtain ⟨r, hr, hri⟩ := h.exists_smaller _ _ hj i hij
      obtain ⟨m, hm, rfl⟩ := List.mem_map.1 ((h.mem_iff r).2 ⟨i, hri⟩)
      have hmi : m < i := Int.ofNat_lt.1 hr
      rw [ih m hmi (Nat.lt_trans hmi hi)] at hri
      exact absurd (Option.some.inj hri) (Nat.ne_of_lt hmi)

theorem state?_eq_self (h : p.IsNumbered ((List.range k).map Int.ofNat))
    (hsingle : ∀ q r, p.Same q r → q = r) (hq : q ∈ (List.range k).map Int.ofNat) :
    p.state? q = some q := by
  obtain ⟨i, hi, rfl⟩ := List.mem_map.1 hq
  exact state?_of_index? (index?_ofNat h hsingle (List.mem_range.1 hi))

end Partition

/-- The quotient by classes that become their only members is the automaton. -/
theorem quotient_eq (h : d.IsValid) (hp : p.IsNumbered d.states)
    (hself : ∀ q ∈ d.states, p.state? q = some q) (hs : d.subsets = []) :
    d.quotient p.classes = d := by
  have hfirst : ∀ i < p.count, p.first d.states i = Int.ofNat i := fun i hi =>
    Option.some.inj ((hself _ (Partition.first_mem hp hi)).symm.trans
      (Partition.state?_of_index? (Partition.index?_first hp hi)))
  have hindex : ∀ q ∈ d.states, ∃ i < p.count, Int.ofNat i = q := by
    intro q hq
    obtain ⟨i, hi, hiq⟩ := Partition.state?_eq_some_iff.1 (hself q hq)
    exact ⟨i, hp.lt_count q i hi, hiq⟩
  refine (quotient_isValid h hp).ext h (fun q => ?_) ?_ (fun q => ?_) (fun q a r => ?_)
    (fun a => mem_quotient_alphabet h hp) hs.symm
  · rw [mem_quotient_states h hp]
    constructor
    · rintro ⟨i, hi, rfl⟩
      exact hfirst i hi ▸ Partition.first_mem hp hi
    · exact hindex q
  · exact Option.some.inj ((quotient_start h hp).symm.trans (hself _ h.start_mem))
  · rw [mem_quotient_final h hp]
    constructor
    · rintro ⟨i, hi, rfl, hfinal⟩
      exact hfirst i hi ▸ hfinal
    · intro hfinal
      obtain ⟨i, hi, rfl⟩ := hindex q (h.final_mem q hfinal)
      exact ⟨i, hi, rfl, (hfirst i hi).symm ▸ hfinal⟩
  · have hbind : ∀ q, (d.delta q a).bind p.state? = d.delta q a := by
      intro q
      cases hr : d.delta q a with
      | none => rfl
      | some r => exact hself r (h.mem_of_delta hr).2.2
    rw [mem_quotient_edges h hp, ← h.delta_eq_some_iff]
    constructor
    · rintro ⟨i, hi, rfl, hr⟩
      rwa [hbind, hfirst i hi] at hr
    · intro hr
      obtain ⟨i, hi, rfl⟩ := hindex q (h.mem_of_delta hr).1
      exact ⟨i, hi, rfl, by rwa [hbind, hfirst i hi]⟩

/-! ## Minimized automata -/

/-- A minimal automaton whose states are numbered from nought and stand for no sets. -/
structure IsMinimized (d : DFA) : Prop extends d.IsMinimal where
  states_eq : ∃ k, d.states = (List.range k).map Int.ofNat
  subsets_eq : d.subsets = []

theorem minimize_isMinimized (h : d.IsValid) : d.minimize.IsMinimized :=
  ⟨minimize_isMinimal h, exists_minimize_states_eq h, minimize_subsets⟩

theorem IsMinimized.minimize_eq (h : d.IsMinimized) : d.minimize = d := by
  obtain ⟨k, hk⟩ := h.states_eq
  obtain ⟨p, hp, -, halike, hmin⟩ := exists_minimize_eq h.toIsValid
  rw [h.trim_eq h.subsets_eq] at hp halike hmin
  have hsingle : ∀ q r, p.Same q r → q = r := fun q r hqr =>
    h.eq_of_alike q r ((halike q r).1 hqr)
  rw [hmin]
  refine quotient_eq h.toIsValid hp (fun q hq => ?_) h.subsets_eq
  exact Partition.state?_eq_self (hk ▸ hp) hsingle (hk ▸ hq)

/-! ## Minimized automata that have been completed -/

/-- Trimming takes the new state out, and the moves that lead to it. -/
theorem trim_complete_eq (h : d.IsTrim) (hlive : ∀ q ∈ d.states, d.IsLive q)
    (hs : d.subsets = []) : (d.complete []).trim = d := by
  have hv := h.toIsValid
  have hc : (d.complete []).IsValid := complete_isValid hv
  have hstates : ∀ q, q ∈ (d.complete []).trim.states ↔ q ∈ d.states := by
    intro q
    have hlives : (d.complete []).IsLive q ↔ d.IsLive q := by
      simp only [IsLive, complete_acceptsFrom hv]
    rw [mem_trim_states hc, complete_start, hlives]
    constructor
    · rintro ⟨⟨w, hw⟩, hq⟩
      rcases complete_runFrom_cases hv hw with hold | ⟨-, rfl⟩
      · exact hv.mem_of_runFrom hv.start_mem hold
      · rcases hq with hstart | ⟨v, haccepts⟩
        · exact hstart ▸ hv.start_mem
        · have hfresh : (d.complete []).acceptsFrom d.freshState v = false :=
            complete_acceptsFrom_freshState hv
          rw [complete_acceptsFrom hv, haccepts] at hfresh
          cases hfresh
    · intro hq
      obtain ⟨w, hw⟩ := h.reachable q hq
      exact ⟨⟨w, complete_runFrom_of_eq_some hv hw⟩, .inr (hlive q hq)⟩
  refine (trim_isValid hc).ext hv hstates complete_start (fun q => ?_) (fun q a r => ?_)
    (fun a => ?_) hs.symm
  · rw [mem_trim_final, mem_complete_final, hstates]
    exact and_iff_left_of_imp (hv.final_mem q)
  · rw [← (trim_isValid hc).delta_eq_some_iff, ← hv.delta_eq_some_iff, trim_delta_eq_some_iff hc,
      hstates, hstates]
    constructor
    · rintro ⟨hr, -, hmem⟩
      refine (complete_delta_cases hv hr).resolve_right ?_
      rintro ⟨-, rfl⟩
      exact freshState_not_mem hmem
    · intro hr
      obtain ⟨hq, -, hmem⟩ := hv.mem_of_delta hr
      exact ⟨(complete_delta_eq_some_iff hv).2 (.inl hr), hq, hmem⟩
  · rw [mem_trim_alphabet hc, mem_complete_alphabet hv]
    simp

/-- Minimizing undoes completion. -/
theorem IsMinimized.minimize_complete_eq (h : d.IsMinimized) (hlive : ∀ q ∈ d.states, d.IsLive q) :
    (d.complete []).minimize = d := by
  have htrim : (d.complete []).trim = d.trim := by
    rw [trim_complete_eq h.toIsTrim hlive h.subsets_eq, h.trim_eq h.subsets_eq]
  rw [minimize_congr htrim, h.minimize_eq]

theorem emptyLanguage_alphabet {alphabet : List Symbol} (h : Ascending alphabet) :
    (emptyLanguage alphabet).alphabet = alphabet :=
  Ascending.ext (emptyLanguage_isValid alphabet).alphabet_ascending h
    fun _ => mem_emptyLanguage_alphabet

theorem minimizeComplete_minimizeComplete (h : d.IsValid) :
    d.minimizeComplete.minimizeComplete = d.minimizeComplete := by
  rcases minimizeComplete_cases h with ⟨w, hw, hparts⟩ | ⟨-, hparts⟩
  · have hagain : d.minimizeComplete.minimizeComplete =
        d.minimizeComplete.minimize.complete [] :=
      minimizeComplete_of_accepts (minimizeComplete_isReduced h).toIsValid
        ((minimizeComplete_accepts h).trans hw)
    rw [hagain, hparts, (minimize_isMinimized h).minimize_complete_eq
      fun q => minimize_isLive h hw]
  · have hnone : ∀ w, (emptyLanguage d.alphabet).accepts w = false :=
      accepts_eq_false_of_final rfl
    rw [hparts, minimizeComplete_of_none (emptyLanguage_isValid d.alphabet) hnone,
      emptyLanguage_alphabet h.alphabet_ascending]

/-- Minimizing again changes no part of an automaton, whether it is completed each time or not. -/
theorem minimize_idempotent (d : DFA) (h : d.IsValid) :
    d.minimize.minimize = d.minimize ∧
      d.minimizeComplete.minimizeComplete = d.minimizeComplete :=
  ⟨(minimize_isMinimized h).minimize_eq, minimizeComplete_minimizeComplete h⟩

theorem minimize_idempotent_forked : forked.IsValid ∧
    forked.minimize.minimize = forked.minimize ∧
      forked.minimizeComplete.minimizeComplete = forked.minimizeComplete :=
  ⟨forked_isValid, minimize_idempotent forked forked_isValid⟩

example : forked.minimizeComplete.states = [0, 1, 2] := by decide

end RegularLanguage.DFA
