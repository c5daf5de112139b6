import RegularLanguage.Ascending
import RegularLanguage.Search.Grouping
/-!
# Graph search

The nodes that can be reached in a finite graph. The search goes by rounds: a round moves a front of
nodes to their successors, and those that have not been visited before are the next front.

| here | `relang` |
| --- | --- |
| `reach` | the loops of `epsilon_closure`, `reachable_states` and `productive_states` |
| `reach`, round by round | the loop of `AdjacencyMatrixFA.reachable` |
-/

namespace RegularLanguage

open Std

variable {ν : Type} [Ord ν]

/-- The nodes that have been visited, and those of them that are new in the round. -/
abbrev Visit (ν : Type) [Ord ν] := TreeSet ν compare × List ν

def visit (s : Visit ν) (v : ν) : Visit ν :=
  if s.1.contains v then s else (s.1.insert v, v :: s.2)

/-- Visits the successors of all nodes of the front. -/
def visitFront (successors : ν → List ν) (front : List ν) (visited : TreeSet ν compare) : Visit ν :=
  front.foldl (fun s v => (successors v).foldl visit s) (visited, [])

/-- Adds to `visited` all nodes that are reached from the front, in at most `fuel` rounds. -/
def sweep (successors : ν → List ν) : Nat → List ν → TreeSet ν compare → TreeSet ν compare
  | 0, _, visited => visited
  | fuel + 1, front, visited =>
    match visitFront successors front visited with
    | (visited, []) => visited
    | (visited, next) => sweep successors fuel next visited

/-- The nodes that can be reached from the sources, these included, in ascending order. Every round
but the last finds a node, so the rounds do if `bound` is at least the number of nodes that are the
successor of some node. -/
def reach (successors : ν → List ν) (bound : Nat) (sources : List ν) : List ν :=
  (sweep successors bound sources (TreeSet.ofList sources compare)).toList

theorem ascending_reach [TransOrd ν] (successors : ν → List ν) (bound : Nat) (sources : List ν) :
    Ascending (reach successors bound sources) :=
  TreeSet.ordered_toList

/-- A finite graph: the successors of each node, and the number of arcs. -/
structure Digraph (ν : Type) [Ord ν] where
  successors : Grouping ν ν
  arcs : Nat

namespace Digraph

def ofArcs (arcs : List (ν × ν)) : Digraph ν := ⟨.ofPairs arcs, arcs.length⟩

/-- The nodes that can be reached from the sources, these included, in ascending order. -/
def reach (g : Digraph ν) (sources : List ν) : List ν :=
  RegularLanguage.reach g.successors.values g.arcs sources

variable [TransOrd ν] [LawfulEqOrd ν]

theorem mem_successors {arcs : List (ν × ν)} {v w : ν} :
    w ∈ (ofArcs arcs).successors.values v ↔ (v, w) ∈ arcs := by
  classical
  exact Grouping.mem_values_ofPairs

end Digraph

end RegularLanguage
