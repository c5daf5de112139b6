import RegularLanguage.NFA.Basic
/-!
# Building automata step by step

States and moves are added one at a time, in any order; whether they fit together is found out only
when the automaton is asked for.

| here | `relang` |
| --- | --- |
| `Builder` | `NFABuilder` |
| `addState` | `add_state` |
| `addEdge`, `addSilent` | `add_transition`, `add_epsilon_transition` |
| `build` | `build` |
-/

namespace RegularLanguage.NFA

/-- An automaton in progress: the states nought up to below `size`, and the moves added, the latest
first. -/
structure Builder where
  size : Nat := 0
  edges : List (Edge Label) := []

namespace Builder

/-- Adds a state, whose number is the number of states added before. -/
def addState (b : Builder) : State × Builder := (b.size, { b with size := b.size + 1 })

/-- Adds a move. Its ends need not have been added yet. -/
def addEdge (b : Builder) (source : State) (label : Label) (target : State) : Builder :=
  { b with edges := ⟨source, label, target⟩ :: b.edges }

def addSilent (b : Builder) (source target : State) : Builder := b.addEdge source none target

def states (b : Builder) : List State := (List.range b.size).map Int.ofNat

/-- The automaton of what has been added, if the parts fit together. -/
def build (b : Builder) (start : State) (final : List State) (alphabet : List Symbol) :
    Except AutomatonError NFA :=
  NFA.build b.states start final b.edges.reverse alphabet

end Builder

end RegularLanguage.NFA
