import RegularLanguage.Proofs.DFA.Classes
import RegularLanguage.Proofs.DFA.Quotient
/-!
# The smallest automaton for a language

A trimmed automaton in which no two states accept the same words is called minimal. Words that lead
to different states of it are told apart by some continuation, so they lead to different states of
every automaton for the same language (`IsMinimal.length_le`). Minimization yields one.
-/

namespace RegularLanguage.DFA

variable {d e : DFA} {q r : State} {u v w : Word}

/-- Every state is needed, and no two states accept the same words. -/
structure IsMinimal (d : DFA) : Prop extends d.IsTrim where
  eq_of_alike : ∀ q r, d.Alike q r → q = r

/-! ## No automaton for the language has fewer states -/

/-- Words that lead to one state have the same continuations in every automaton for the language. -/
theorem accepts_append_of_runFrom (he : ∀ w, e.accepts w = d.accepts w)
    (hq : d.runFrom d.start u = some q) : e.accepts (u ++ v) = d.acceptsFrom q v := by
  rw [he, accepts, acceptsFrom_append hq]

/-- Every automaton for the language has a state that accepts what a live state accepts. -/
theorem exists_acceptsFrom_eq (hvalid : e.IsValid) (he : ∀ w, e.accepts w = d.accepts w)
    (hu : d.runFrom d.start u = some q) (hlive : d.IsLive q) :
    ∃ s ∈ e.states, ∀ w, e.acceptsFrom s w = d.acceptsFrom q w := by
  obtain ⟨v, hv⟩ := hlive
  rw [← accepts_append_of_runFrom he hu] at hv
  obtain ⟨s, hs⟩ := exists_runFrom_of_acceptsFrom hv
  refine ⟨s, hvalid.mem_of_runFrom hvalid.start_mem hs, fun w => ?_⟩
  rw [← acceptsFrom_append hs]
  exact accepts_append_of_runFrom he hu

/-- States that accept different words have different likes in another automaton. -/
theorem length_le_of_like (hnodup : d.states.Nodup) (halike : ∀ q r, d.Alike q r → q = r)
    (hlike : ∀ q ∈ d.states, ∃ s ∈ e.states, ∀ w, e.acceptsFrom s w = d.acceptsFrom q w) :
    d.states.length ≤ e.states.length := by
  choose! f hmem hwords using hlike
  have hinj : ∀ q ∈ d.states, ∀ r ∈ d.states, f q = f r → q = r := by
    intro q hq r hr hqr
    refine halike q r ⟨hq, hr, fun w => ?_⟩
    rw [← hwords q hq, ← hwords r hr, hqr]
  have hsub : d.states.map f ⊆ e.states := by
    intro s hs
    obtain ⟨q, hq, rfl⟩ := List.mem_map.1 hs
    exact hmem q hq
  calc d.states.length = (d.states.map f).length := (List.length_map f).symm
    _ ≤ e.states.length := ((hnodup.map_on hinj).subperm hsub).length_le

theorem IsMinimal.length_le (h : d.IsMinimal) (hvalid : e.IsValid)
    (he : ∀ w, e.accepts w = d.accepts w) : d.states.length ≤ e.states.length := by
  have hnodup := h.states_ascending.nodup
  by_cases hsingle : ∀ q ∈ d.states, q = d.start
  · -- one state is never too many
    have hsub : d.states ⊆ [d.start] := fun q hq => List.mem_singleton.2 (hsingle q hq)
    calc d.states.length ≤ 1 := (hnodup.subperm hsub).length_le
      _ ≤ e.states.length := List.length_pos_of_mem hvalid.start_mem
  · simp only [not_forall] at hsingle
    obtain ⟨q₀, hq₀, hne⟩ := hsingle
    -- all states are live, so each has its like in the other automaton
    refine length_le_of_like hnodup h.eq_of_alike fun q hq => ?_
    obtain ⟨u, hu⟩ := h.reachable q hq
    exact exists_acceptsFrom_eq hvalid he hu (h.isLive_of_ne hq₀ h.start_mem hne hq)

/-! ## Minimization -/

section

variable {p : Partition} (h : d.IsTrim) (hp : p.IsNumbered d.states) (hs : d.IsStable p.Same)

include h hp hs

theorem quotient_isTrim : (d.quotient p.classes).IsTrim := by
  have hstart := quotient_start h.toIsValid hp
  refine ⟨quotient_isValid h.toIsValid hp, fun s hs' => ?_, fun s hs' hne => ?_⟩
  · obtain ⟨i, hi, rfl⟩ := (mem_quotient_states h.toIsValid hp).1 hs'
    obtain ⟨w, hw⟩ := h.reachable _ (Partition.first_mem hp hi)
    refine ⟨w, ?_⟩
    rw [quotient_runFrom h.toIsValid hp hs hstart, hw]
    exact Partition.state?_of_index? (Partition.index?_first hp hi)
  · obtain ⟨i, hi, rfl⟩ := (mem_quotient_states h.toIsValid hp).1 hs'
    have hfirst := Partition.state?_of_index? (Partition.index?_first hp hi)
    have hne' : p.first d.states i ≠ d.start := by
      intro he
      rw [he, hstart] at hfirst
      exact hne (Option.some.inj hfirst).symm
    obtain ⟨w, hw⟩ := h.live _ (Partition.first_mem hp hi) hne'
    exact ⟨w, by rw [quotient_acceptsFrom h.toIsValid hp hs hfirst]; exact hw⟩

/-- Classes accept the same words only if their members do. -/
theorem quotient_isMinimal (halike : ∀ q r, p.Same q r ↔ d.Alike q r) :
    (d.quotient p.classes).IsMinimal := by
  refine ⟨quotient_isTrim h hp hs, fun s t hst => ?_⟩
  obtain ⟨hsmem, htmem, hwords⟩ := hst
  obtain ⟨i, hi, rfl⟩ := (mem_quotient_states h.toIsValid hp).1 hsmem
  obtain ⟨j, hj, rfl⟩ := (mem_quotient_states h.toIsValid hp).1 htmem
  have hfi := Partition.index?_first hp hi
  have hfj := Partition.index?_first hp hj
  have hsame : p.Same (p.first d.states i) (p.first d.states j) := by
    refine (halike _ _).2 ⟨Partition.first_mem hp hi, Partition.first_mem hp hj, fun w => ?_⟩
    rw [← quotient_acceptsFrom h.toIsValid hp hs (Partition.state?_of_index? hfi),
      ← quotient_acceptsFrom h.toIsValid hp hs (Partition.state?_of_index? hfj), hwords]
  exact congrArg Int.ofNat (Option.some.inj ((hsame.index?_eq hfi).symm.trans hfj))

end

/-- The states of the minimized automaton are the classes of states that accept the same words. -/
theorem exists_minimize_eq (h : d.IsValid) : ∃ p : Partition, p.IsNumbered d.trim.states ∧
    d.trim.IsStable p.Same ∧ (∀ q r, p.Same q r ↔ d.trim.Alike q r) ∧
    d.minimize = d.trim.quotient p.classes := by
  obtain ⟨p, hp, hs, halike, hclasses⟩ := exists_equivalenceClasses_eq h
  exact ⟨p, hp, hs, halike, by rw [minimize, hclasses]⟩

theorem minimize_accepts (h : d.IsValid) : d.minimize.accepts w = d.accepts w := by
  obtain ⟨p, hnumbered, hstable, -, hmin⟩ := exists_minimize_eq h
  have ht := trim_isValid h
  rw [hmin, accepts, quotient_acceptsFrom ht hnumbered hstable (quotient_start ht hnumbered)]
  exact trim_accepts h

theorem minimize_isMinimal (h : d.IsValid) : d.minimize.IsMinimal := by
  obtain ⟨p, hp, hs, halike, hmin⟩ := exists_minimize_eq h
  exact hmin ▸ quotient_isMinimal (trim_isTrim h) hp hs halike

/-- The minimized automaton accepts the same words, and no automaton that does has fewer states. -/
theorem minimize_accepts_and_smallest (d : DFA) (h : d.IsValid) :
    (∀ w, d.minimize.accepts w = d.accepts w) ∧
      ∀ e : DFA, e.IsValid → (∀ w, e.accepts w = d.accepts w) →
        d.minimize.states.length ≤ e.states.length :=
  ⟨fun _ => minimize_accepts h, fun _ hvalid he =>
    (minimize_isMinimal h).length_le hvalid fun w => (he w).trans (minimize_accepts h).symm⟩

/-- An automaton with two final states that accept the same words, and with a state that accepts
none. -/
def forked : DFA :=
  ofParts [3, 5, 9, 12] 3 [5, 9] [⟨3, "a", 5⟩, ⟨3, "b", 9⟩, ⟨5, "a", 12⟩] [] []

theorem forked_isValid : forked.IsValid := by
  have hbuild : build [3, 5, 9, 12] 3 [5, 9]
      [⟨3, some "a", 5⟩, ⟨3, some "b", 9⟩, ⟨5, some "a", 12⟩] [] [] = .ok forked := by rfl
  exact build_isValid hbuild (by decide)

theorem forked_minimize_accepts_and_smallest : forked.IsValid ∧
    (∀ w, forked.minimize.accepts w = forked.accepts w) ∧
      ∀ e : DFA, e.IsValid → (∀ w, e.accepts w = forked.accepts w) →
        forked.minimize.states.length ≤ e.states.length :=
  ⟨forked_isValid, minimize_accepts_and_smallest forked forked_isValid⟩

example : forked.minimize.states = [0, 1] := by decide

end RegularLanguage.DFA
