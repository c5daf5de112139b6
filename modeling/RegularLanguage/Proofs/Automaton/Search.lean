import RegularLanguage.Proofs.DFA.Minimal
import RegularLanguage.Proofs.NFA.WithoutSilent
import RegularLanguage.Proofs.Search.Stack
/-!
# Searching automata agrees with their words

The states that can be reached are found forwards, looking up the moves of a state under each symbol
of the alphabet; those from which a word is accepted are found backwards, along the edges turned
round. The alphabet of a valid automaton holds all symbols in use, so both searches go along the
same edges. Both end, with the states that paths lead to and that words are accepted from
(`searches_agree_with_words`).

| here | `relang` |
| --- | --- |
| `NFA.successors`, `DFA.successors` | `_successors` |
| `stackReach` | the loops of `reachable_states`, `productive_states` and `epsilon_closure` |
-/

namespace RegularLanguage

variable {p q : State}

namespace Automaton

variable {α : Type}

/-- The states that are found with a stack. Each edge leads to one state, so there are enough
steps. -/
def stackReach (a : Automaton α) (successors : State → List State) (sources : List State) :
    Option (List State) :=
  stackSearch successors (sources.length + a.edges.length) sources

/-- Forward search along `successors` and backward search along the edges turned round end with the
same states as searches by rounds: those to which something leads from the sources, and those from
which something is accepted. -/
structure SearchesAgree (a : Automaton α) (successors : State → List State) (sources : List State)
    (Leading : State → State → Prop) (Accepting : State → Prop) : Prop where
  forward_ends : a.stackReach successors sources = some (a.reachableFrom sources)
  backward_ends : a.stackReach a.backward.successors.values a.final = some a.productive
  mem_reachableFrom_iff : ∀ q, q ∈ a.reachableFrom sources ↔ ∃ p ∈ sources, Leading p q
  mem_productive_iff : ∀ q, q ∈ a.productive ↔ Accepting q
  productive_iff_reachable : ∀ q, q ∈ a.productive ↔ ∃ r ∈ a.reachableFrom [q], r ∈ a.final

variable {a : Automaton α} {successors successors' : State → List State} {sources : List State}

/-- A search along arcs that each have an edge of their own has enough steps. -/
theorem stackReach_eq_some {found : List State} (endOf : Edge α → State)
    (hends : ∀ p, ∀ q ∈ successors p, ∃ e ∈ a.edges, endOf e = q)
    (hsame : ∀ p q, q ∈ successors p ↔ q ∈ successors' p) (hfound : Ascending found)
    (hmem : ∀ q, q ∈ found ↔ ∃ p ∈ sources, Leads successors' p q) :
    a.stackReach successors sources = some found := by
  have hnodes : ∀ p, ∀ q ∈ successors p, q ∈ a.edges.map endOf :=
    fun p q hq => List.mem_map.2 (hends p q hq)
  obtain ⟨found', hsearch, hfound', hmem'⟩ := exists_stackSearch_eq hnodes
    (Nat.le_refl (sources.length + (a.edges.map endOf).length))
  have hequal : found' = found := by
    refine Ascending.ext hfound' hfound fun q => ?_
    rw [hmem', hmem]
    exact exists_congr fun p => and_congr_right fun _ =>
      ⟨.mono fun p q => (hsame p q).1, .mono fun p q => (hsame p q).2⟩
  rw [stackReach, ← List.length_map endOf, hsearch, hequal]

/-- It is enough that the successors of a state are the targets of its edges, that along edges one
gets where something leads, and that a state accepts where something leads on to a final state. -/
theorem searchesAgree {Leading : State → State → Prop} {Accepting : State → Prop}
    (hsuccessors : ∀ p q, q ∈ successors p ↔ ∃ l, ⟨p, l, q⟩ ∈ a.edges)
    (hleads : ∀ p q, Leads a.forward.successors.values p q ↔ Leading p q)
    (haccepting : ∀ q, Accepting q ↔ ∃ r ∈ a.final, Leading q r) (sources : List State) :
    a.SearchesAgree successors sources Leading Accepting where
  forward_ends := by
    refine stackReach_eq_some Edge.target (fun p q hq => ?_)
      (fun p q => (hsuccessors p q).trans mem_forward.symm) (ascending_reach _ _ _)
      fun q => mem_reachableFrom
    obtain ⟨l, he⟩ := (hsuccessors p q).1 hq
    exact ⟨_, he, rfl⟩
  backward_ends := by
    refine stackReach_eq_some Edge.source (fun p q hq => ?_) (fun _ _ => Iff.rfl)
      (ascending_reach _ _ _) fun q => Digraph.mem_reach
    obtain ⟨l, he⟩ := mem_backward.1 hq
    exact ⟨_, he, rfl⟩
  mem_reachableFrom_iff q := by simp only [mem_reachableFrom, hleads]
  mem_productive_iff q := by simp only [mem_productive, hleads, haccepting]
  productive_iff_reachable q := by
    simp only [mem_productive, mem_reachableFrom, List.mem_singleton, exists_eq_left]
    exact exists_congr fun r => and_comm

end Automaton

/-! ## Nondeterministic automata -/

namespace NFA

variable {n : NFA} {w : Word}

/-- The states that one move leads to, looked up under each label: silent moves, then every symbol
of the alphabet. -/
def successors (n : NFA) (q : State) : List State :=
  (none :: n.alphabet.map some).flatMap fun l => n.move [q] l

def acceptsFrom (n : NFA) (q : State) (w : Word) : Bool := NFA.accepts { n with start := q } w

theorem mem_successors (h : n.IsValid) : q ∈ n.successors p ↔ ∃ l, ⟨p, l, q⟩ ∈ n.edges := by
  simp only [successors, List.mem_flatMap, mem_move, List.mem_singleton, exists_eq_left]
  constructor
  · rintro ⟨l, -, he⟩
    exact ⟨l, he⟩
  · rintro ⟨l, he⟩
    refine ⟨l, ?_, he⟩
    cases l with
    | none => exact List.mem_cons_self
    | some a => exact List.mem_cons_of_mem _ (List.mem_map_of_mem (h.label_mem _ he a rfl))

/-- Silent moves lead on as other moves do. -/
theorem leads_forward_iff : Leads n.forward.successors.values p q ↔ ∃ w, n.Path p w q := by
  constructor
  · intro h
    induction h with
    | refl => exact ⟨[], .nil _⟩
    | step h _ ih =>
      obtain ⟨l, he⟩ := Automaton.mem_forward.1 h
      obtain ⟨w, hw⟩ := ih
      cases l with
      | none => exact ⟨w, .silent he hw⟩
      | some a => exact ⟨a :: w, .symbol he hw⟩
  · rintro ⟨w, hw⟩
    induction hw with
    | nil => exact .refl _
    | silent he _ ih => exact .step (Automaton.mem_forward.2 ⟨_, he⟩) ih
    | symbol he _ ih => exact .step (Automaton.mem_forward.2 ⟨_, he⟩) ih

theorem acceptsFrom_iff_exists_path :
    n.acceptsFrom q w = true ↔ ∃ r ∈ n.final, n.Path q w r := by
  rw [acceptsFrom, accepts_iff_exists_path]
  refine exists_congr fun r => ?_
  rw [and_comm]
  exact and_congr_right fun _ => ⟨.mono fun _ he => he, .mono fun _ he => he⟩

theorem searchesAgree (h : n.IsValid) (sources : List State) :
    n.SearchesAgree n.successors sources (fun p q => ∃ w, n.Path p w q)
      fun q => ∃ w, n.acceptsFrom q w = true := by
  refine Automaton.searchesAgree (fun _ _ => mem_successors h) (fun _ _ => leads_forward_iff)
    (fun q => ?_) sources
  simp only [acceptsFrom_iff_exists_path]
  exact ⟨fun ⟨w, r, hr, hw⟩ => ⟨r, hr, w, hw⟩, fun ⟨r, hr, w, hw⟩ => ⟨w, r, hr, hw⟩⟩

end NFA

/-! ## Deterministic automata -/

namespace DFA

variable {d : DFA}

/-- The states that one move leads to, looked up under each symbol of the alphabet. -/
def successors (d : DFA) (q : State) : List State := d.alphabet.filterMap (d.delta q)

theorem mem_successors (h : d.IsValid) : q ∈ d.successors p ↔ ∃ a, ⟨p, a, q⟩ ∈ d.edges := by
  simp only [successors, List.mem_filterMap, h.delta_eq_some_iff]
  exact ⟨fun ⟨a, _, he⟩ => ⟨a, he⟩, fun ⟨a, he⟩ => ⟨a, h.label_mem _ he, he⟩⟩

theorem searchesAgree (h : d.IsValid) (sources : List State) :
    d.SearchesAgree d.successors sources (fun p q => ∃ w, d.runFrom p w = some q)
      fun q => ∃ w, d.acceptsFrom q w = true := by
  refine Automaton.searchesAgree (fun _ _ => mem_successors h) (fun _ _ => leads_forward_iff h)
    (fun q => ?_) sources
  simp only [acceptsFrom_eq_true_iff]
  exact ⟨fun ⟨w, r, hr, hw⟩ => ⟨r, hr, w, hw⟩, fun ⟨r, hr, w, hw⟩ => ⟨w, r, hr, hw⟩⟩

end DFA

/-- For automata of both kinds, forward search finds the states that paths lead to, backward search
finds those from which words are accepted, and from these a final state is found forwards. -/
theorem searches_agree_with_words (n : NFA) (d : DFA) (hn : n.IsValid) (hd : d.IsValid) :
    (∀ sources, n.SearchesAgree n.successors sources (fun p q => ∃ w, n.Path p w q)
      fun q => ∃ w, n.acceptsFrom q w = true) ∧
    ∀ sources, d.SearchesAgree d.successors sources (fun p q => ∃ w, d.runFrom p w = some q)
      fun q => ∃ w, d.acceptsFrom q w = true :=
  ⟨NFA.searchesAgree hn, DFA.searchesAgree hd⟩

theorem searches_agree_with_words_roundabout_forked :
    NFA.roundabout.IsValid ∧ DFA.forked.IsValid ∧
    (∀ sources, NFA.roundabout.SearchesAgree NFA.roundabout.successors sources
      (fun p q => ∃ w, NFA.roundabout.Path p w q)
      fun q => ∃ w, NFA.roundabout.acceptsFrom q w = true) ∧
    ∀ sources, DFA.forked.SearchesAgree DFA.forked.successors sources
      (fun p q => ∃ w, DFA.forked.runFrom p w = some q)
      fun q => ∃ w, DFA.forked.acceptsFrom q w = true :=
  ⟨NFA.roundabout_isValid, DFA.forked_isValid, searches_agree_with_words NFA.roundabout DFA.forked
    NFA.roundabout_isValid DFA.forked_isValid⟩

example : NFA.roundabout.stackReach NFA.roundabout.successors [1, 8] = some [-6, 1, 4, 8] := by
  decide

end RegularLanguage
