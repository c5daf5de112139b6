import RegularLanguage.Regex.Basic
import RegularLanguage.Search.Reach
import RegularLanguage.Text.Integer
import RegularLanguage.Text.Quoted
/-!
# Finite automata

What automata with and without silent moves have in common. States are integers. The sets of
states, edges and symbols are ascending lists, so automata with the same states, start, final
states, edges and alphabet are equal.

| here | `relang` |
| --- | --- |
| `Edge` and its order | `Edge`, `_edge_key` |
| `Automaton` | `FiniteAutomaton` |
| `AutomatonError` | the assertions of `_init_states` and of the constructors of `NFA` and `DFA` |
| `reachableFrom`, `reachable` | `reachable_states`, with and without `sources` |
| `productive` | `productive_states` |
| `describe` | `__repr__` |
-/

namespace RegularLanguage

open Std

abbrev State := Int

/-- A move from one state to another under a label. -/
structure Edge (α : Type) where
  source : State
  label : α
  target : State
deriving DecidableEq

namespace Edge

variable {α β : Type}

/-- Edges are ordered by source, then label, then target. -/
instance [Ord α] : Ord (Edge α) :=
  ⟨compareLex (compareOn source) (compareLex (compareOn label) (compareOn target))⟩

instance [Ord α] [TransOrd α] : TransOrd (Edge α) :=
  inferInstanceAs (TransCmp
    (compareLex (compareOn source) (compareLex (compareOn label) (compareOn target))))

instance [Ord α] [TransOrd α] [LawfulEqOrd α] : LawfulEqOrd (Edge α) where
  eq_of_compare := by
    intro e f h
    have h' : compareLex (compareOn source) (compareLex (compareOn label) (compareOn target)) e f =
        .eq := h
    simp only [compareLex_eq_eq, compareOn, LawfulEqOrd.compare_eq_iff_eq] at h'
    cases e
    cases f
    simp_all

def relabel (f : α → β) (e : Edge α) : Edge β := ⟨e.source, f e.label, e.target⟩

end Edge

structure Automaton (α : Type) where
  states : List State
  start : State
  final : List State
  edges : List (Edge α)
  alphabet : List Symbol
deriving DecidableEq

/-- Why given parts form no automaton. -/
inductive AutomatonError where
  | unknownStart
  | unknownFinal
  | unknownSource (source : State)
  | unknownTargetFrom (source : State)
  | unknownTarget (target : State)
  | silentMove
deriving DecidableEq

/-- The message for an error, if the state in it can be written. -/
def AutomatonError.message : AutomatonError → Except Text.WriteError String
  | unknownStart => return "start state is not a state"
  | unknownFinal => return "final state is not a state"
  | unknownSource q => return "transition from unknown state " ++ (← Text.writeInteger q)
  | unknownTargetFrom q => return "transition from " ++ (← Text.writeInteger q) ++ " to unknown state"
  | unknownTarget q => return "transition to unknown state " ++ (← Text.writeInteger q)
  | silentMove => return "DFA cannot have epsilon transitions"

namespace Automaton

variable {α : Type}

/-- The automaton of the given parts, whose lists are put in order. -/
def ofParts [Ord α] (states : List State) (start : State) (final : List State)
    (edges : List (Edge α)) (alphabet : List Symbol) : Automaton α where
  states := Ascending.ofList states
  start := start
  final := Ascending.ofList final
  edges := Ascending.ofList edges
  alphabet := Ascending.ofList alphabet

/-- The lists are in order, and start, final states and ends of edges are states. -/
structure IsProper [Ord α] (a : Automaton α) : Prop where
  states_ascending : Ascending a.states
  final_ascending : Ascending a.final
  edges_ascending : Ascending a.edges
  alphabet_ascending : Ascending a.alphabet
  start_mem : a.start ∈ a.states
  final_mem : ∀ q ∈ a.final, q ∈ a.states
  source_mem : ∀ e ∈ a.edges, e.source ∈ a.states
  target_mem : ∀ e ∈ a.edges, e.target ∈ a.states

/-- The labels and targets of the edges that leave each state. -/
def outgoing (a : Automaton α) : Grouping State (α × State) :=
  .ofPairs (a.edges.map fun e => (e.source, e.label, e.target))

/-- The edges without their labels. -/
def forward (a : Automaton α) : Digraph State := .ofArcs (a.edges.map fun e => (e.source, e.target))

def backward (a : Automaton α) : Digraph State :=
  .ofArcs (a.edges.map fun e => (e.target, e.source))

/-- The states to which some path leads from a source. -/
def reachableFrom (a : Automaton α) (sources : List State) : List State :=
  a.forward.reach sources

def reachable (a : Automaton α) : List State := a.reachableFrom [a.start]

/-- The states from which some path leads to a final state. -/
def productive (a : Automaton α) : List State := a.backward.reach a.final

/-- A short description under the name of the automaton's kind, if the states in it can be
written. -/
def describe (kind : String) (a : Automaton α) : Except Text.WriteError String := do
  let start ← Text.writeInteger a.start
  let final ← a.final.mapM Text.writeInteger
  return kind ++ "(states=" ++ toString a.states.length ++ ", start=" ++ start ++
    ", final=[" ++ ", ".intercalate final ++ "], alphabet=" ++ Text.quotedList a.alphabet ++ ")"

end Automaton

end RegularLanguage
