import RegularLanguage.Proofs.Checked.Basic
import RegularLanguage.Proofs.DFA.Complete
import RegularLanguage.Proofs.DFA.Trim
/-!
# Guarded operations that keep or add states of deterministic automata

The greatest state is asked for when a new one is added. Where states are left out, the moves that
are kept have to lead to states that are kept. No guard fails (`complete_eq_ok`, `prune_eq_ok`,
`trim_eq_ok`).

| here | `relang` |
| --- | --- |
| `complete`, `prune`, `trim` | `complete`, `remove_unreachable_states`, `trim` |
-/

namespace RegularLanguage.Checked

open Std

variable {d : DFA}

/-! ## Completion -/

def complete (d : DFA) (alphabet : List Symbol) : Except Fault DFA := do
  let symbols := Ascending.ofList (d.alphabet ++ alphabet)
  if d.isCompleteOver symbols then
    buildDFA d.states d.start d.final d.edges symbols d.subsets
  else
    let greatest ← require .emptyChoice d.states.max?
    let sink := greatest + 1
    let states := d.states ++ [sink]
    let missing := states.flatMap fun q => symbols.filterMap fun a =>
      if (d.delta q a).isSome then none else some ⟨q, a, sink⟩
    buildDFA states d.start d.final (d.edges ++ missing) symbols d.subsets

/-- The start is a state, so there is a greatest one. -/
theorem max?_states (h : d.IsValid) : d.states.max? = some (d.states.foldl max d.start) := by
  have hall : (d.start :: d.states).max? = some (d.states.foldl max d.start) := rfl
  obtain ⟨hmem, hle⟩ := List.max?_eq_some_iff.1 hall
  refine List.max?_eq_some_iff.2 ⟨?_, fun q hq => hle q (List.mem_cons_of_mem _ hq)⟩
  rcases List.mem_cons.1 hmem with hstart | hmem
  · rw [hstart]
    exact h.start_mem
  · exact hmem

theorem complete_eq_ok (h : d.IsValid) (alphabet : List Symbol) :
    complete d alphabet = .ok (d.complete alphabet) := by
  have hvalid : (d.complete alphabet).IsValid := DFA.complete_isValid h
  unfold DFA.complete at hvalid ⊢
  unfold complete
  by_cases htotal : d.isCompleteOver (Ascending.ofList (d.alphabet ++ alphabet)) = true
  · simp only [if_pos htotal] at hvalid ⊢
    exact buildDFA_of_isValid hvalid
  · simp only [if_neg htotal] at hvalid ⊢
    rw [max?_states h]
    exact buildDFA_of_isValid hvalid

/-! ## Leaving states out -/

def prune (d : DFA) : Except Fault DFA :=
  let reached := TreeSet.ofList d.reachable compare
  buildDFA d.reachable d.start (d.final.filter reached.contains)
    (d.edges.filter fun e => reached.contains e.source) d.alphabet
    (d.subsets.filter fun (q, _) => reached.contains q)

def trim (d : DFA) : Except Fault DFA :=
  let kept := TreeSet.ofList d.usefulOrStart compare
  buildDFA d.usefulOrStart d.start (d.final.filter kept.contains)
    (d.edges.filter fun e => kept.contains e.source && kept.contains e.target) d.alphabet []

/-- A move from a state that is reached leads to one that is reached. -/
theorem mem_reachable_target (h : d.IsValid) {e : Edge Symbol} (he : e ∈ d.edges)
    (hsource : e.source ∈ d.reachable) : e.target ∈ d.reachable := by
  rw [DFA.mem_reachable h] at hsource ⊢
  obtain ⟨w, hw⟩ := hsource
  exact ⟨w ++ [e.label], DFA.runFrom_concat_eq_some_iff.2 ⟨_, hw, h.delta_eq_some_iff.2 he⟩⟩

theorem prune_eq_ok (h : d.IsValid) : prune d = .ok d.prune := by
  classical
  -- only sources are asked for, but the targets are reached along with them
  have hedges : (d.edges.filter fun e => (TreeSet.ofList d.reachable compare).contains e.source) =
      d.edges.filter fun e => (TreeSet.ofList d.reachable compare).contains e.source &&
        (TreeSet.ofList d.reachable compare).contains e.target := by
    refine List.filter_congr fun e he => ?_
    simpa [TreeSet.contains_ofList] using mem_reachable_target h he
  unfold prune
  simp only [hedges]
  exact buildDFA_of_isValid (DFA.prune_isValid h)

theorem trim_eq_ok (h : d.IsValid) : trim d = .ok d.trim :=
  buildDFA_of_isValid (DFA.trim_isValid h)

end RegularLanguage.Checked
