import RegularLanguage.DFA.Trim
import RegularLanguage.Proofs.DFA.Run
/-!
# Trimming keeps the language

A state that is taken out accepts nothing, or it is not reached: so every state that is left accepts
what it accepted before (`trim_acceptsFrom`). After trimming only the start may accept nothing, and
then it is the only state.
-/

namespace RegularLanguage.DFA

open Std

variable {d : DFA} {q r : State} {a : Symbol} {w : Word}

def IsLive (d : DFA) (q : State) : Prop := ∃ w, d.acceptsFrom q w = true

theorem mem_usefulOrStart (h : d.IsValid) : q ∈ d.usefulOrStart ↔
    (∃ w, d.runFrom d.start w = some q) ∧ (q = d.start ∨ d.IsLive q) := by
  classical
  rw [usefulOrStart, List.mem_filter, mem_reachable h, Bool.or_eq_true, decide_eq_true_iff,
    TreeSet.contains_ofList, List.contains_iff_mem, mem_productive h]
  exact Iff.rfl

/-! ## Restriction to some of the states -/

section

variable {keep : List State}

@[simp]
theorem mem_restrict_states : q ∈ (d.restrict keep).states ↔ q ∈ keep := Ascending.mem_ofList

@[simp]
theorem mem_restrict_final : q ∈ (d.restrict keep).final ↔ q ∈ d.final ∧ q ∈ keep := by
  classical
  simp [restrict, ofParts, Automaton.ofParts, TreeSet.contains_ofList]

@[simp]
theorem mem_restrict_edges : ⟨q, a, r⟩ ∈ (d.restrict keep).edges ↔
    ⟨q, a, r⟩ ∈ d.edges ∧ q ∈ keep ∧ r ∈ keep := by
  classical
  simp [restrict, ofParts, Automaton.ofParts, TreeSet.contains_ofList]

theorem restrict_isValid (h : d.IsValid) (hstart : d.start ∈ keep) : (d.restrict keep).IsValid := by
  classical
  refine ofParts_isValid hstart (fun q hq => ?_) (fun e he => ?_) fun e he f hf => ?_
  · simpa [TreeSet.contains_ofList] using (List.mem_filter.1 hq).2
  · simpa [TreeSet.contains_ofList] using (List.mem_filter.1 he).2
  · exact h.target_unique e (List.mem_filter.1 he).1 f (List.mem_filter.1 hf).1

end

theorem prune_isValid (h : d.IsValid) : d.prune.IsValid :=
  restrict_isValid h ((mem_reachable h).2 ⟨[], rfl⟩)

/-! ## Trimming -/

theorem mem_trim_states (h : d.IsValid) : q ∈ d.trim.states ↔
    (∃ w, d.runFrom d.start w = some q) ∧ (q = d.start ∨ d.IsLive q) := by
  rw [← mem_usefulOrStart h]
  exact mem_restrict_states

theorem mem_trim_final : q ∈ d.trim.final ↔ q ∈ d.final ∧ q ∈ d.trim.states := by
  have hstates : q ∈ d.trim.states ↔ q ∈ d.usefulOrStart := mem_restrict_states
  rw [hstates]
  exact mem_restrict_final

theorem trim_isValid (h : d.IsValid) : d.trim.IsValid := by
  have hr := restrict_isValid h ((mem_usefulOrStart h).2 ⟨⟨[], rfl⟩, .inl rfl⟩)
  exact ⟨hr.toIsProper, hr.label_mem, hr.target_unique⟩

theorem trim_delta_eq_some_iff (h : d.IsValid) : d.trim.delta q a = some r ↔
    d.delta q a = some r ∧ q ∈ d.trim.states ∧ r ∈ d.trim.states := by
  have hmem : ∀ {s}, s ∈ d.trim.states ↔ s ∈ d.usefulOrStart := mem_restrict_states
  rw [(trim_isValid h).delta_eq_some_iff, h.delta_eq_some_iff, hmem, hmem]
  exact mem_restrict_edges

/-- A move of a state that is left stays unless it leads to a state that accepts nothing. -/
theorem mem_trim_states_of_delta (h : d.IsValid) (hq : q ∈ d.trim.states)
    (hr : d.delta q a = some r) (hlive : d.IsLive r) : r ∈ d.trim.states := by
  obtain ⟨u, hu⟩ := ((mem_trim_states h).1 hq).1
  exact (mem_trim_states h).2 ⟨⟨u ++ [a], runFrom_concat_eq_some_iff.2 ⟨q, hu, hr⟩⟩, .inr hlive⟩

/-- A state that is left accepts what it accepted before. -/
theorem trim_acceptsFrom (h : d.IsValid) (hq : q ∈ d.trim.states) :
    d.trim.acceptsFrom q w = d.acceptsFrom q w := by
  induction w generalizing q with
  | nil =>
    rw [Bool.eq_iff_iff, acceptsFrom_nil_iff, acceptsFrom_nil_iff, mem_trim_final]
    exact and_iff_left hq
  | cons a w ih =>
    rw [acceptsFrom_cons, acceptsFrom_cons]
    cases hs : d.trim.delta q a with
    | some s =>
      obtain ⟨hr, -, hkept⟩ := (trim_delta_eq_some_iff h).1 hs
      rw [hr]
      exact ih hkept
    | none =>
      cases hr : d.delta q a with
      | none => rfl
      | some r =>
        -- the state has been taken out although it can be reached, so it is not live
        have hdead : ¬ d.IsLive r := by
          intro hlive
          have hkept := mem_trim_states_of_delta h hq hr hlive
          rw [(trim_delta_eq_some_iff h).2 ⟨hr, hq, hkept⟩] at hs
          cases hs
        exact (Bool.eq_false_iff.2 fun hw => hdead ⟨w, hw⟩).symm

theorem trim_accepts (h : d.IsValid) : d.trim.accepts w = d.accepts w :=
  trim_acceptsFrom h ((mem_trim_states h).2 ⟨⟨[], rfl⟩, .inl rfl⟩)

theorem trim_isLive_iff (h : d.IsValid) (hq : q ∈ d.trim.states) :
    d.trim.IsLive q ↔ d.IsLive q := by
  simp only [IsLive, trim_acceptsFrom h hq]

/-- After trimming only the start may accept nothing. -/
theorem trim_isLive (h : d.IsValid) (hq : q ∈ d.trim.states) (hne : q ≠ d.start) :
    d.trim.IsLive q :=
  (trim_isLive_iff h hq).2 (((mem_trim_states h).1 hq).2.resolve_left hne)

theorem runFrom_of_trim (h : d.IsValid) (hr : d.trim.runFrom q w = some r) :
    d.runFrom q w = some r := by
  induction w generalizing q with
  | nil => exact hr
  | cons a w ih =>
    obtain ⟨s, hs, hw⟩ := Option.bind_eq_some_iff.1 hr
    exact Option.bind_eq_some_iff.2 ⟨s, ((trim_delta_eq_some_iff h).1 hs).1, ih hw⟩

/-- A run that ends in a live state passes only states that are left by trimming. -/
theorem trim_runFrom_eq_some_iff (h : d.IsValid) (hq : q ∈ d.trim.states) (hr : d.IsLive r) :
    d.trim.runFrom q w = some r ↔ d.runFrom q w = some r := by
  refine ⟨runFrom_of_trim h, fun hw => ?_⟩
  induction w generalizing q with
  | nil => exact hw
  | cons a w ih =>
    obtain ⟨s, hs, hw⟩ := Option.bind_eq_some_iff.1 hw
    have hlive : d.IsLive s := by
      obtain ⟨v, hv⟩ := hr
      exact ⟨w ++ v, by rw [acceptsFrom_append hw]; exact hv⟩
    have hkept := mem_trim_states_of_delta h hq hs hlive
    exact Option.bind_eq_some_iff.2
      ⟨s, (trim_delta_eq_some_iff h).2 ⟨hs, hq, hkept⟩, ih hkept hw⟩

end RegularLanguage.DFA
