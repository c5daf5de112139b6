import RegularLanguage.Proofs.Checked.Basic
import RegularLanguage.Proofs.NFA.Thompson
import RegularLanguage.Proofs.NFA.WithoutSilent
/-!
# Guarded operations that give nondeterministic automata

The automaton of an expression is put together once. Removing silent moves puts an automaton of all
states together first, finds out what is reached in it, and puts the rest together from what has
been reached. No guard fails (`toNFA_eq_ok`, `withoutSilent_eq_ok`).

| here | `relang` |
| --- | --- |
| `toNFA` | `compile_to_nfa` |
| `allMoves`, `allFinal`, `full` | `transitions`, `final_states`, `full` of `remove_epsilon_transitions` |
-/

namespace RegularLanguage.Checked

variable {n : NFA} {p q r : State} {l : Label}

/-! ## The automaton of an expression -/

def toNFA (r : Regex) (alphabet : List Symbol) : Except Fault NFA := do
  let (f, b) ← require .unbalanced (r.assemble {})
  (b.build f.start [f.accept] alphabet).mapError .misfit

theorem toNFA_eq_ok (r : Regex) (alphabet : List Symbol) :
    toNFA r alphabet = .ok (r.toNFA alphabet) := by
  rw [toNFA, Regex.assemble_eq_fragment]
  exact congrArg (Except.mapError Fault.misfit) (r.build_fragment alphabet)

/-! ## Removing silent moves -/

/-- The moves that symbols make with silent moves before and after them, from any state. -/
def allMoves (n : NFA) : List (Edge Label) :=
  n.states.flatMap fun q => (n.symbolTargets n.moves q).flatMap fun x =>
    x.2.map fun r => ⟨q, some x.1, r⟩

def allFinal (n : NFA) : List State :=
  n.states.filter fun q => Ascending.meets (n.closure [q]) n.final

def withoutSilent (n : NFA) : Except Fault NFA := do
  let full ← buildNFA n.states n.start (allFinal n) (allMoves n) n.alphabet
  let kept := full.reachable
  buildNFA kept n.start ((allFinal n).filter kept.contains)
    ((allMoves n).filter fun e => kept.contains e.source) n.alphabet

theorem mem_allFinal : q ∈ allFinal n ↔ q ∈ n.states ∧ ∃ r ∈ n.final, n.Path q [] r := by
  simp [allFinal, NFA.mem_closure, and_comm]

/-- The automaton of all states, before those that are not reached are left out. -/
def full (n : NFA) : NFA := .ofParts n.states n.start (allFinal n) (allMoves n) n.alphabet

section

variable (h : n.IsValid)

include h

theorem mem_allMoves : ⟨p, l, r⟩ ∈ allMoves n ↔ ∃ a, l = some a ∧ n.Path p [a] r := by
  simp only [allMoves, List.mem_flatMap, List.mem_map, ← NFA.exists_mem_targetsOf_iff h,
    NFA.targetsOf_eq h]
  constructor
  · rintro ⟨p, hp, ⟨a, rs⟩, hrs, r, hr, he⟩
    cases he
    exact ⟨a, rfl, rs, by rwa [if_pos hp], hr⟩
  · rintro ⟨a, rfl, rs, hrs, hr⟩
    by_cases hp : p ∈ n.states
    · rw [if_pos hp] at hrs
      exact ⟨p, hp, (a, rs), hrs, r, hr, rfl⟩
    · simp [hp] at hrs

theorem full_isValid : (full n).IsValid := by
  refine NFA.ofParts_isValid h.start_mem (fun q hq => (mem_allFinal.1 hq).1) fun ⟨p, l, r⟩ he => ?_
  obtain ⟨a, -, hpath⟩ := (mem_allMoves h).1 he
  have hp := hpath.source_mem h (by simp)
  exact ⟨hp, hpath.mem_states h hp⟩

/-- Going along the edges is going where single symbols lead. -/
theorem mem_full_successors :
    r ∈ (full n).forward.successors.values q ↔ r ∈ n.nextStates q := by
  rw [Automaton.mem_forward, NFA.mem_nextStates h]
  simp only [full, NFA.ofParts, Automaton.ofParts, Ascending.mem_ofList, mem_allMoves h]
  constructor
  · rintro ⟨-, a, -, hr⟩
    exact ⟨a, hr⟩
  · rintro ⟨a, hr⟩
    exact ⟨some a, a, rfl, hr⟩

/-- The states that are reached when all are there are the ones that are kept. -/
theorem full_reachable : (full n).reachable = n.kept := by
  refine Ascending.ext (ascending_reach _ _ _) (ascending_reach _ _ _) fun q => ?_
  have hreach : q ∈ (full n).reachable ↔ Leads (full n).forward.successors.values n.start q := by
    rw [Automaton.reachable, Automaton.mem_reachableFrom]
    simp [full, NFA.ofParts, Automaton.ofParts]
  rw [hreach, NFA.mem_kept h, ← NFA.leads_nextStates_iff h]
  exact ⟨.mono fun _ _ => (mem_full_successors h).1, .mono fun _ _ => (mem_full_successors h).2⟩

theorem mem_states_of_mem_kept (hq : q ∈ n.kept) : q ∈ n.states := by
  rcases (NFA.mem_kept h).1 hq with rfl | ⟨w, -, hw⟩
  · exact h.start_mem
  · exact hw.mem_states h h.start_mem

theorem ofParts_kept : NFA.ofParts n.kept n.start ((allFinal n).filter n.kept.contains)
    ((allMoves n).filter fun e => n.kept.contains e.source) n.alphabet = n.withoutSilent := by
  have hstates : ∀ q, q ∈ n.withoutSilent.states ↔ q ∈ n.kept := fun _ => Ascending.mem_ofList
  rw [n.withoutSilent_eq_ofParts]
  refine NFA.ofParts_congr (fun _ => Iff.rfl) (fun q => ?_) fun p l r => ?_
  · refine Iff.trans ?_ (Ascending.mem_ofList.symm.trans NFA.mem_withoutSilent_final).symm
    rw [hstates, List.mem_filter, mem_allFinal, List.contains_iff_mem]
    exact ⟨fun ⟨⟨_, hfinal⟩, hq⟩ => ⟨hq, hfinal⟩,
      fun ⟨hq, hfinal⟩ => ⟨⟨mem_states_of_mem_kept h hq, hfinal⟩, hq⟩⟩
  · refine Iff.trans ?_ (Ascending.mem_ofList.symm.trans (NFA.mem_withoutSilent_edges h)).symm
    rw [hstates, List.mem_filter, mem_allMoves h, List.contains_iff_mem]
    exact and_comm

theorem withoutSilent_eq_ok : withoutSilent n = .ok n.withoutSilent := by
  rw [withoutSilent, buildNFA_of_isValid (full_isValid h)]
  -- the second automaton is put together from what is reached in the first one
  change buildNFA (full n).reachable n.start ((allFinal n).filter (full n).reachable.contains)
    ((allMoves n).filter fun e => (full n).reachable.contains e.source) n.alphabet = _
  rw [full_reachable h, buildNFA_of_isValid (ofParts_kept h ▸ NFA.withoutSilent_isValid h),
    ofParts_kept h]

end

end RegularLanguage.Checked
