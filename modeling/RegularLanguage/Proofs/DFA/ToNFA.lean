import RegularLanguage.Proofs.DFA.Run
import RegularLanguage.Proofs.NFA.Simulation
/-!
# Deterministic automata among the others

A deterministic automaton is one without silent moves whose paths are its runs
(`DFA.toNFA_path_iff`), so it accepts the same words when it is simulated (`DFA.toNFA_accepts`).
-/

namespace RegularLanguage.DFA

variable {d : DFA} {p q : State} {l : Label} {w : Word}

@[simp]
theorem mem_toNFA_edges : ⟨p, l, q⟩ ∈ d.toNFA.edges ↔ ∃ a, l = some a ∧ ⟨p, a, q⟩ ∈ d.edges := by
  have hedges : d.toNFA.edges = d.edges.map (Edge.relabel some) := rfl
  rw [hedges, List.mem_map]
  constructor
  · rintro ⟨⟨_, a, _⟩, he, heq⟩
    cases heq
    exact ⟨a, rfl, he⟩
  · rintro ⟨a, rfl, he⟩
    exact ⟨_, he, rfl⟩

theorem toNFA_hasSilentMoves (d : DFA) : d.toNFA.hasSilentMoves = false := by
  refine List.any_eq_false.2 fun ⟨p, l, q⟩ he => ?_
  obtain ⟨a, rfl, -⟩ := mem_toNFA_edges.1 he
  simp

theorem toNFA_isValid (h : d.IsValid) : d.toNFA.IsValid where
  states_ascending := h.states_ascending
  final_ascending := h.final_ascending
  edges_ascending := List.pairwise_map.2 (h.edges_ascending.imp fun hlt => hlt)
  alphabet_ascending := h.alphabet_ascending
  start_mem := h.start_mem
  final_mem := h.final_mem
  source_mem := by
    rintro ⟨p, l, q⟩ he
    obtain ⟨a, -, he'⟩ := mem_toNFA_edges.1 he
    exact h.source_mem _ he'
  target_mem := by
    rintro ⟨p, l, q⟩ he
    obtain ⟨a, -, he'⟩ := mem_toNFA_edges.1 he
    exact h.target_mem _ he'
  label_mem := by
    rintro ⟨p, l, q⟩ he a hl
    obtain ⟨b, hb, he'⟩ := mem_toNFA_edges.1 he
    exact Option.some.inj (hb.symm.trans hl) ▸ h.label_mem _ he'

/-- The paths are the runs. -/
theorem toNFA_path_iff (h : d.IsValid) : d.toNFA.Path p w q ↔ d.runFrom p w = some q := by
  induction w generalizing p with
  | nil =>
    rw [NFA.path_nil_iff d.toNFA_hasSilentMoves]
    exact (Option.some_inj (a := p) (b := q)).symm
  | cons a w ih =>
    rw [NFA.path_cons_iff, runFrom_cons, Option.bind_eq_some_iff]
    simp only [NFA.path_nil_iff d.toNFA_hasSilentMoves, exists_and_left, exists_eq_left', ih,
      mem_toNFA_edges, Option.some.injEq, h.delta_eq_some_iff]

theorem toNFA_accepts (h : d.IsValid) : d.toNFA.accepts w = d.accepts w := by
  rw [Bool.eq_iff_iff, NFA.accepts_iff_exists_path, accepts, acceptsFrom_eq_true_iff]
  refine exists_congr fun q => ?_
  rw [toNFA_path_iff h, and_comm]
  exact Iff.rfl

end RegularLanguage.DFA
