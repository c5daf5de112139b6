import RegularLanguage.DFA.Basic
import RegularLanguage.Search.Discovery
/-!
# Subset construction

The deterministic automaton whose states are the sets of states in which a nondeterministic one may
be. They are numbered in breadth-first order, symbols being tried in ascending order.

| here | `relang` |
| --- | --- |
| `subsetMoves` | the loop over `symbols` in `determinize` |
| `determinize` | `determinize` |
-/

namespace RegularLanguage.NFA

/-- The sets that single symbols lead to from a set of states. The empty set counts only if the
automaton is to be complete. -/
def subsetMoves (m : Moves) (symbols : List Symbol) (complete : Bool) (qs : List State) :
    List (Symbol × List State) :=
  symbols.filterMap fun a =>
    let target := m.step qs (some a)
    if target.isEmpty && !complete then none else some (a, target)

/-- The sets of states that words lead to, and the moves between them. -/
def discoverSubsets (n : NFA) (symbols : List Symbol) (complete : Bool) :
    Discovery (List State) Symbol :=
  let m := n.moves
  .ofStart (Nat.pow 2 n.states.length) (subsetMoves m symbols complete) (m.closure [n.start])

/-- The deterministic automaton over the symbols of both alphabets. It is partial unless it is asked
to be complete: then the empty set is a state too, if some word leads to it. -/
def determinize (n : NFA) (alphabet : List Symbol) (complete : Bool) : DFA :=
  let symbols := Ascending.ofList (n.alphabet ++ alphabet)
  let d := n.discoverSubsets symbols complete
  let subsets := d.found.keys.toList.mapIdx fun i qs => ((i : State), qs)
  let final := (subsets.filter fun (_, qs) => Ascending.meets qs n.final).map Prod.fst
  let edges := d.arcs.map fun (i, a, j) => ⟨(i : State), a, (j : State)⟩
  .ofParts (subsets.map Prod.fst) 0 final edges symbols subsets

end RegularLanguage.NFA
