import RegularLanguage.Proofs.DFA.Canonical
import RegularLanguage.Proofs.DFA.Complete
import RegularLanguage.Proofs.DFA.Subset
import RegularLanguage.Proofs.NFA.WithoutSilent
/-!
# The smallest complete automaton

A complete automaton runs on every word over its alphabet. So if its states are reached and accept
different words, every other complete automaton has as many (`IsReduced.length_le`). Completing the
smallest partial automaton adds at most one state, which accepts nothing as no other state does.
Subset constructions for one language are numbered alike, so they lead to the same complete
automaton, whether they have the empty set as a state or not
(`determinize_minimizeComplete_eq_and_smallest`).
-/

namespace RegularLanguage

open Std

namespace DFA

variable {d e : DFA} {q r : State} {a : Symbol} {u w : Word} {alphabet : List Symbol}

/-! ## Automata in which all states are reached and told apart -/

/-- Every state is reached, and no two states accept the same words. -/
structure IsReduced (d : DFA) : Prop extends d.IsValid where
  reachable : ∀ q ∈ d.states, ∃ w, d.runFrom d.start w = some q
  eq_of_alike : ∀ q r, d.Alike q r → q = r

/-- No automaton for the same words that is total over the alphabet has fewer states. -/
theorem IsReduced.length_le (h : d.IsReduced) (he : e.IsValid)
    (htotal : ∀ q ∈ e.states, ∀ a ∈ d.alphabet, ∃ r, e.delta q a = some r)
    (hwords : ∀ w, e.accepts w = d.accepts w) : d.states.length ≤ e.states.length := by
  refine length_le_of_like h.states_ascending.nodup h.eq_of_alike fun q hq => ?_
  obtain ⟨u, hu⟩ := h.reachable q hq
  obtain ⟨s, hs⟩ := he.exists_runFrom_of_total htotal he.start_mem
    (h.toIsValid.mem_alphabet_of_runFrom hu)
  exact ⟨s, he.mem_of_runFrom he.start_mem hs, fun w =>
    Corresponds.acceptsFrom_eq hwords ⟨u, hs, hu⟩⟩

/-! ## Completing a minimal automaton -/

/-- If every state accepts something, the new state differs from all others. -/
theorem IsMinimal.complete_isReduced (h : d.IsMinimal) (hlive : ∀ q ∈ d.states, d.IsLive q) :
    (d.complete alphabet).IsReduced := by
  have hv := h.toIsValid
  have hunlike : ∀ q ∈ d.states, ¬ (d.complete alphabet).Alike q d.freshState := by
    intro q hq halike
    obtain ⟨w, hw⟩ := hlive q hq
    rw [← complete_acceptsFrom hv, halike.2.2 w, complete_acceptsFrom_freshState hv] at hw
    cases hw
  refine ⟨complete_isValid hv, fun q hq => exists_runFrom_of_mem_complete hv h.reachable hq,
    fun q r hqr => ?_⟩
  · rcases mem_complete_states.1 hqr.1 with hq | ⟨-, rfl⟩ <;>
      rcases mem_complete_states.1 hqr.2.1 with hr | ⟨-, rfl⟩
    · refine h.eq_of_alike q r ⟨hq, hr, fun w => ?_⟩
      rw [← complete_acceptsFrom hv, hqr.2.2 w, complete_acceptsFrom hv]
    · exact absurd hqr (hunlike q hq)
    · exact absurd hqr.symm (hunlike r hr)
    · rfl

/-! ## The automaton of the empty language -/

theorem emptyLanguage_isValid (alphabet : List Symbol) : (emptyLanguage alphabet).IsValid := by
  refine ofParts_isValid (by simp) (by simp) (fun e he => ?_) fun e he f hf _ _ => ?_
  · obtain ⟨a, -, rfl⟩ := List.mem_map.1 he
    simp
  · obtain ⟨a, -, rfl⟩ := List.mem_map.1 he
    obtain ⟨b, -, rfl⟩ := List.mem_map.1 hf
    rfl

theorem mem_emptyLanguage_states : q ∈ (emptyLanguage alphabet).states ↔ q = 0 := by
  simp [emptyLanguage, ofParts, Automaton.ofParts]

theorem mem_emptyLanguage_alphabet : a ∈ (emptyLanguage alphabet).alphabet ↔ a ∈ alphabet := by
  simp [emptyLanguage, ofParts, Automaton.ofParts]

theorem emptyLanguage_delta (ha : a ∈ alphabet) : (emptyLanguage alphabet).delta 0 a = some 0 := by
  rw [(emptyLanguage_isValid alphabet).delta_eq_some_iff]
  simp [emptyLanguage, ofParts, Automaton.ofParts, ha]

theorem emptyLanguage_isReduced (alphabet : List Symbol) : (emptyLanguage alphabet).IsReduced := by
  refine ⟨emptyLanguage_isValid alphabet, fun q hq => ?_, fun q r hqr => ?_⟩
  · obtain rfl := mem_emptyLanguage_states.1 hq
    exact ⟨[], rfl⟩
  · rw [mem_emptyLanguage_states.1 hqr.1, mem_emptyLanguage_states.1 hqr.2.1]

/-! ## The smallest complete automaton of an automaton -/

section

variable (h : d.IsValid)

include h

theorem mem_trim_alphabet : a ∈ d.trim.alphabet ↔ a ∈ d.alphabet := by
  have hlabel : ∀ e ∈ (d.restrict d.usefulOrStart).edges, e.label ∈ d.alphabet := by
    rintro ⟨q, a, r⟩ he
    exact h.label_mem _ (mem_restrict_edges.1 he).1
  have hgiven : a ∈ (d.restrict d.usefulOrStart).alphabet ↔ a ∈ d.alphabet :=
    mem_ofParts_alphabet rfl hlabel
  exact hgiven

theorem mem_minimize_alphabet : a ∈ d.minimize.alphabet ↔ a ∈ d.alphabet := by
  obtain ⟨p, hp, -, -, hmin⟩ := exists_minimize_eq h
  rw [hmin, mem_quotient_alphabet (trim_isValid h) hp, mem_trim_alphabet h]

omit h in
theorem minimize_subsets : d.minimize.subsets = [] := rfl

/-- The minimized automaton has a final state if some word is accepted. -/
theorem minimize_final_eq_nil_iff : d.minimize.final = [] ↔ ∀ w, d.accepts w = false := by
  have hm := minimize_isMinimal h
  constructor
  · intro hfinal w
    rw [← minimize_accepts h]
    exact accepts_eq_false_of_final hfinal w
  · intro hnone
    refine List.eq_nil_iff_forall_not_mem.2 fun q hq => ?_
    obtain ⟨w, hw⟩ := hm.reachable q (hm.final_mem q hq)
    have haccepts : d.minimize.accepts w = true := acceptsFrom_eq_true_iff.2 ⟨q, hq, hw⟩
    rw [minimize_accepts h, hnone w] at haccepts
    cases haccepts

/-- Where no word is accepted, a single state is left that keeps all moves to itself. -/
theorem minimizeComplete_of_none (hnone : ∀ w, d.accepts w = false) :
    d.minimizeComplete = emptyLanguage d.alphabet := by
  unfold minimizeComplete
  simp [(minimize_final_eq_nil_iff h).2 hnone]

/-- Where some word is accepted, the minimized automaton is completed. -/
theorem minimizeComplete_of_accepts (hw : d.accepts w = true) :
    d.minimizeComplete = d.minimize.complete [] := by
  have hfinal : d.minimize.final ≠ [] := by
    intro hnil
    rw [(minimize_final_eq_nil_iff h).1 hnil w] at hw
    cases hw
  unfold minimizeComplete
  simp [hfinal]

/-- The smallest automaton is completed, unless no word is accepted. -/
theorem minimizeComplete_cases :
    (∃ w, d.accepts w = true ∧ d.minimizeComplete = d.minimize.complete []) ∨
      (∀ w, d.accepts w = false) ∧ d.minimizeComplete = emptyLanguage d.alphabet := by
  by_cases hsome : ∃ w, d.accepts w = true
  · obtain ⟨w, hw⟩ := hsome
    exact .inl ⟨w, hw, minimizeComplete_of_accepts h hw⟩
  · have hnone : ∀ w, d.accepts w = false := by simpa using hsome
    exact .inr ⟨hnone, minimizeComplete_of_none h hnone⟩

/-- Where some word is accepted, every state of the minimized automaton accepts one. -/
theorem minimize_isLive (hw : d.accepts w = true) (hq : q ∈ d.minimize.states) :
    d.minimize.IsLive q := by
  by_cases hstart : q = d.minimize.start
  · exact ⟨w, hstart ▸ (minimize_accepts h).trans hw⟩
  · exact (minimize_isMinimal h).live q hq hstart

theorem minimizeComplete_isReduced : d.minimizeComplete.IsReduced := by
  rcases minimizeComplete_cases h with ⟨w, hw, hparts⟩ | ⟨-, hparts⟩ <;> rw [hparts]
  · exact (minimize_isMinimal h).complete_isReduced fun q => minimize_isLive h hw
  · exact emptyLanguage_isReduced d.alphabet

theorem minimizeComplete_accepts : d.minimizeComplete.accepts w = d.accepts w := by
  rcases minimizeComplete_cases h with ⟨-, -, hparts⟩ | ⟨hnone, hparts⟩ <;> rw [hparts]
  · rw [complete_accepts (minimize_isMinimal h).toIsValid, minimize_accepts h]
  · rw [hnone w]
    exact accepts_eq_false_of_final rfl w

theorem mem_minimizeComplete_alphabet : a ∈ d.minimizeComplete.alphabet ↔ a ∈ d.alphabet := by
  rcases minimizeComplete_cases h with ⟨-, -, hparts⟩ | ⟨-, hparts⟩ <;> rw [hparts]
  · rw [mem_complete_alphabet (minimize_isMinimal h).toIsValid, mem_minimize_alphabet h]
    simp
  · exact mem_emptyLanguage_alphabet

theorem minimizeComplete_isTotal : ∀ q ∈ d.minimizeComplete.states,
    ∀ a ∈ d.minimizeComplete.alphabet, ∃ r, d.minimizeComplete.delta q a = some r := by
  intro q hq a ha
  rw [mem_minimizeComplete_alphabet h] at ha
  rcases minimizeComplete_cases h with ⟨-, -, hparts⟩ | ⟨-, hparts⟩ <;> rw [hparts] at hq ⊢
  · exact (exists_complete_delta_iff (minimize_isMinimal h).toIsValid hq).2
      (.inl ((mem_minimize_alphabet h).2 ha))
  · obtain rfl := mem_emptyLanguage_states.1 hq
    exact ⟨0, emptyLanguage_delta ha⟩

end

/-! ## Automata for the same words over the same symbols -/

theorem SameParts.eq (h : d.SameParts e) (halphabet : d.alphabet = e.alphabet)
    (hsubsets : d.subsets = e.subsets) : d = e := by
  obtain ⟨hstates, hstart, hfinal, hedges⟩ := h
  obtain ⟨⟨_, _, _, _, _⟩, _⟩ := d
  obtain ⟨⟨_, _, _, _, _⟩, _⟩ := e
  simp_all

section

variable (hd : d.IsValid) (he : e.IsValid) (hds : d.IsShortlex) (hes : e.IsShortlex)
  (halphabet : ∀ a, a ∈ d.alphabet ↔ a ∈ e.alphabet) (hwords : ∀ w, d.accepts w = e.accepts w)

include hd he hds hes halphabet hwords

theorem minimize_eq_of_accepts (hw : d.accepts w = true) : d.minimize = e.minimize := by
  have hcd := minimize_isCanonical_of_accepts hd hds hw
  have hce := minimize_isCanonical_of_accepts he hes ((hwords w).symm.trans hw)
  have hparts : d.minimize.SameParts e.minimize := (hcd.sameParts_iff hce).2 fun w => by
    rw [minimize_accepts hd, minimize_accepts he, hwords]
  refine hparts.eq (Ascending.ext hcd.alphabet_ascending hce.alphabet_ascending fun a => ?_) ?_
  · rw [mem_minimize_alphabet hd, mem_minimize_alphabet he, halphabet]
  · rw [minimize_subsets, minimize_subsets]

/-- Automata whose states are in the order of their words lead to the same complete automaton if
they accept the same words over the same symbols. -/
theorem minimizeComplete_eq : d.minimizeComplete = e.minimizeComplete := by
  rcases minimizeComplete_cases hd with ⟨w, hw, hparts⟩ | ⟨hnone, hparts⟩ <;> rw [hparts]
  · rw [minimizeComplete_of_accepts he ((hwords w).symm.trans hw),
      minimize_eq_of_accepts hd he hds hes halphabet hwords hw]
  · have hnone' : ∀ w, e.accepts w = false := fun w => (hwords w).symm.trans (hnone w)
    rw [minimizeComplete_of_none he hnone',
      Ascending.ext hd.alphabet_ascending he.alphabet_ascending halphabet]

end

end DFA

namespace NFA

/-- Automata for the same words, with the same symbols in all, lead to one complete automaton,
whether the subset constructions are asked to be complete or not. It is total over the symbols and
accepts the words, and no other automaton that is and does has fewer states. -/
theorem determinize_minimizeComplete_eq_and_smallest (n m : NFA) (hn : n.IsValid) (hm : m.IsValid)
    (alphabet alphabet' : List Symbol) (complete complete' : Bool)
    (halphabet : ∀ a, a ∈ n.alphabet ∨ a ∈ alphabet ↔ a ∈ m.alphabet ∨ a ∈ alphabet')
    (hwords : ∀ w, n.accepts w = m.accepts w) :
    let d := (n.determinize alphabet complete).minimizeComplete
    d = (m.determinize alphabet' complete').minimizeComplete ∧
      (∀ a, a ∈ d.alphabet ↔ a ∈ n.alphabet ∨ a ∈ alphabet) ∧
      (∀ w, d.accepts w = n.accepts w) ∧
      (∀ q ∈ d.states, ∀ a ∈ d.alphabet, ∃ r, d.delta q a = some r) ∧
      ∀ e : DFA, e.IsValid → (∀ q ∈ e.states, ∀ a ∈ d.alphabet, ∃ r, e.delta q a = some r) →
        (∀ w, e.accepts w = n.accepts w) → d.states.length ≤ e.states.length := by
  have hnd := determinize_isValid hn alphabet complete
  have hmd := determinize_isValid hm alphabet' complete'
  have hequal : (n.determinize alphabet complete).minimizeComplete =
      (m.determinize alphabet' complete').minimizeComplete := by
    refine DFA.minimizeComplete_eq hnd hmd (determinize_isShortlex hn) (determinize_isShortlex hm)
      (fun a => ?_) fun w => ?_
    · rw [mem_determinize_alphabet hn, mem_determinize_alphabet hm, halphabet]
    · rw [determinize_accepts hn, determinize_accepts hm, hwords]
  have hsymbols : ∀ a, a ∈ (n.determinize alphabet complete).minimizeComplete.alphabet ↔
      a ∈ n.alphabet ∨ a ∈ alphabet := by
    intro a
    rw [DFA.mem_minimizeComplete_alphabet hnd, mem_determinize_alphabet hn]
  have haccepts : ∀ w,
      (n.determinize alphabet complete).minimizeComplete.accepts w = n.accepts w := by
    intro w
    rw [DFA.minimizeComplete_accepts hnd, determinize_accepts hn]
  have htotal := DFA.minimizeComplete_isTotal hnd
  have hreduced := DFA.minimizeComplete_isReduced hnd
  generalize (n.determinize alphabet complete).minimizeComplete = d at *
  refine ⟨hequal, hsymbols, haccepts, htotal, fun e he hetotal hewords => ?_⟩
  refine hreduced.length_le he hetotal fun w => ?_
  rw [hewords, haccepts]

/-- An automaton with silent moves and the same one without them, of which the second is told of a
symbol that it has. -/
theorem determinize_minimizeComplete_eq_and_smallest_roundabout :
    roundabout.IsValid ∧ roundabout.withoutSilent.IsValid ∧
    (∀ a, a ∈ roundabout.alphabet ∨ a ∈ ["d"] ↔
      a ∈ roundabout.withoutSilent.alphabet ∨ a ∈ ["a", "d"]) ∧
    (∀ w, roundabout.accepts w = roundabout.withoutSilent.accepts w) ∧
    let d := (roundabout.determinize ["d"] true).minimizeComplete
    d = (roundabout.withoutSilent.determinize ["a", "d"] false).minimizeComplete ∧
      (∀ a, a ∈ d.alphabet ↔ a ∈ roundabout.alphabet ∨ a ∈ ["d"]) ∧
      (∀ w, d.accepts w = roundabout.accepts w) ∧
      (∀ q ∈ d.states, ∀ a ∈ d.alphabet, ∃ r, d.delta q a = some r) ∧
      ∀ e : DFA, e.IsValid → (∀ q ∈ e.states, ∀ a ∈ d.alphabet, ∃ r, e.delta q a = some r) →
        (∀ w, e.accepts w = roundabout.accepts w) → d.states.length ≤ e.states.length := by
  have hvalid := withoutSilent_isValid roundabout_isValid
  have halphabet : ∀ a, a ∈ roundabout.alphabet ∨ a ∈ ["d"] ↔
      a ∈ roundabout.withoutSilent.alphabet ∨ a ∈ ["a", "d"] := by
    have hknown : "a" ∈ roundabout.alphabet := by decide
    intro a
    rw [mem_withoutSilent_alphabet roundabout_isValid]
    grind
  have hwords : ∀ w, roundabout.accepts w = roundabout.withoutSilent.accepts w :=
    fun w => (withoutSilent_accepts roundabout_isValid).symm
  exact ⟨roundabout_isValid, hvalid, halphabet, hwords,
    determinize_minimizeComplete_eq_and_smallest roundabout roundabout.withoutSilent
      roundabout_isValid hvalid ["d"] ["a", "d"] true false halphabet hwords⟩

end NFA

end RegularLanguage
