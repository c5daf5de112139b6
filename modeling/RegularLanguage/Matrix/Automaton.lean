import RegularLanguage.DFA.Basic
import RegularLanguage.Matrix.Boolean
/-!
# Automata as Boolean matrices

An automaton without silent moves as one Boolean matrix for each symbol of its alphabet. Its states
are the indices; two masks tell which of them are start and which are final.

| here | `relang` |
| --- | --- |
| `MatrixAutomaton` | `AdjacencyMatrixFA` |
| `stateIndices` | `index` of `from_automaton` |
| `ofNFA` | `from_automaton` |
| `accepts` | `accepts` |
| `reachable`, `isEmpty` | `reachable`, `is_empty` |
-/

namespace RegularLanguage

open Std

/-- One flag for each index. -/
abbrev Mask := Array Bool

namespace Mask

def flag (m : Mask) (i : Nat) : Bool := m[i]?.getD false

/-- The indices whose flags are set, in ascending order. -/
def indices (m : Mask) : List Nat := (List.range m.size).filter m.flag

/-- The flags of all pairs of indices, in the order of the pairs' indices. -/
def outer (f : Bool → Bool → Bool) (a b : Mask) : Mask :=
  (a.toList.flatMap fun x => b.toList.map fun y => f x y).toArray

end Mask

structure MatrixAutomaton where
  /-- The matrices by ascending symbols. -/
  matrices : List (Symbol × BoolMatrix)
  start : Mask
  final : Mask
deriving DecidableEq

namespace MatrixAutomaton

def size (m : MatrixAutomaton) : Nat := m.start.size

/-- The index of each state, states being numbered in ascending order. -/
def stateIndices (n : NFA) : TreeMap State Nat compare :=
  .ofList (n.states.mapIdx fun i q => (q, i)) compare

def symbolMatrix (n : NFA) (outgoing : Grouping State (Label × State))
    (indices : TreeMap State Nat compare) (a : Symbol) : BoolMatrix where
  rows := (n.states.map fun q => (outgoing.values q).filterMap fun (label, r) =>
    if label = some a then indices[r]? else none).toArray

/-- The matrices of an automaton without silent moves. -/
def ofSymbolMoves (n : NFA) : MatrixAutomaton :=
  let outgoing := n.outgoing
  let indices := stateIndices n
  let final := TreeSet.ofList n.final compare
  { matrices := n.alphabet.map fun a => (a, symbolMatrix n outgoing indices a)
    start := (n.states.map fun q => q == n.start).toArray
    final := (n.states.map final.contains).toArray }

/-- The matrices of an automaton. Silent moves are removed first, if there are any. -/
def ofNFA (n : NFA) : MatrixAutomaton :=
  ofSymbolMoves (if n.hasSilentMoves then n.withoutSilent else n)

/-- The indices after a further symbol, if there is a matrix for it. -/
def advance (m : MatrixAutomaton) (front : List Nat) (a : Symbol) : Option (List Nat) :=
  (m.matrices.lookup a).map fun matrix => matrix.image front

/-- The indices after a word, unless it has a symbol without a matrix. -/
def run (m : MatrixAutomaton) (w : Word) : Option (List Nat) := w.foldlM m.advance m.start.indices

def accepts (m : MatrixAutomaton) (w : Word) : Bool := (m.run w).any fun front =>
  front.any m.final.flag

def acceptsLabels (m : MatrixAutomaton) (labels : List Label) : Bool :=
  (labels.mapM id).any m.accepts

/-- The indices that single symbols lead to. -/
def successors (m : MatrixAutomaton) (i : Nat) : List Nat :=
  m.matrices.flatMap fun (_, matrix) => matrix.row i

/-- The indices to which some word leads from a start index. -/
def reachable (m : MatrixAutomaton) : List Nat := reach m.successors m.size m.start.indices

def isEmpty (m : MatrixAutomaton) : Bool := !m.reachable.any m.final.flag

end MatrixAutomaton

end RegularLanguage
