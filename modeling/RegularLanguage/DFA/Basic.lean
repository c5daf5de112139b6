import RegularLanguage.NFA.Basic
/-!
# Deterministic automata

Automata with at most one move per state and symbol. A move that is missing rejects the word, just
as a move into a state from which nothing is accepted.

| here | `relang` |
| --- | --- |
| `DFA.fault?`, `DFA.build` | the constructor of `DFA` |
| `subsets` | `state_subsets` |
| `delta`, `accepts` | `delta`, `accepts` |
| `isCompleteOver`, `isComplete` | `is_complete`, with and without `alphabet` |
| `complete`, `freshState` | `complete`, its `sink` |
| `prune` | `remove_unreachable_states` |
-/

namespace RegularLanguage

open Std

/-- A deterministic automaton, possibly partial. Its states may stand for sets of states of another
automaton, which are then listed by state. -/
structure DFA extends Automaton Symbol where
  subsets : List (State × List State) := []
deriving DecidableEq

namespace DFA

/-- The last set given for each state, by ascending states. -/
def arrangeSubsets (subsets : List (State × List State)) : List (State × List State) :=
  (subsets.foldl (fun m (q, qs) => m.insert q (Ascending.ofList qs))
    (∅ : TreeMap State (List State) compare)).toList

/-- The automaton of the given parts; symbols on edges belong to its alphabet. -/
def ofParts (states : List State) (start : State) (final : List State) (edges : List (Edge Symbol))
    (alphabet : List Symbol) (subsets : List (State × List State)) : DFA where
  toAutomaton := .ofParts states start final edges (edges.map Edge.label ++ alphabet)
  subsets := arrangeSubsets subsets

/-- The first fault of the given parts. Edges are looked at in their order: their label must be a
symbol, their source a state, and their target a state. -/
def fault? (states : List State) (start : State) (final : List State) (edges : List (Edge Label)) :
    Option AutomatonError :=
  let known := TreeSet.ofList states compare
  if !known.contains start then some .unknownStart
  else if !final.all known.contains then some .unknownFinal
  else edges.findSome? fun e =>
    if e.label = none then some .silentMove
    else if !known.contains e.source then some (.unknownSource e.source)
    else if !known.contains e.target then some (.unknownTarget e.target)
    else none

def build (states : List State) (start : State) (final : List State) (edges : List (Edge Label))
    (alphabet : List Symbol) (subsets : List (State × List State)) : Except AutomatonError DFA :=
  match fault? states start final edges with
  | some e => .error e
  | none =>
    let moves := edges.filterMap fun e => e.label.map fun a => ⟨e.source, a, e.target⟩
    .ok (ofParts states start final moves alphabet subsets)

/-- An automaton whose parts fit together, whose alphabet holds all symbols in use, and that has
at most one move per state and symbol. -/
structure IsValid (d : DFA) : Prop extends d.IsProper where
  label_mem : ∀ e ∈ d.edges, e.label ∈ d.alphabet
  target_unique : ∀ e ∈ d.edges, ∀ f ∈ d.edges,
    e.source = f.source → e.label = f.label → e.target = f.target

/-- The same automaton as one that may have silent moves. -/
def toNFA (d : DFA) : NFA where
  toAutomaton := { d with edges := d.edges.map (Edge.relabel some) }

/-- The moves of an automaton, arranged for running it. -/
abbrev Moves := Grouping State (Symbol × State)

/-- The state that a symbol leads to. -/
def Moves.next (m : Moves) (q : State) (a : Symbol) : Option State := (m.values q).lookup a

def delta (d : DFA) (q : State) (a : Symbol) : Option State := Moves.next d.outgoing q a

/-- The state that a word leads to. -/
def runFrom (d : DFA) (q : State) (w : Word) : Option State :=
  let m : Moves := d.outgoing
  w.foldlM m.next q

def acceptsFrom (d : DFA) (q : State) (w : Word) : Bool := (d.runFrom q w).any d.final.contains

def accepts (d : DFA) (w : Word) : Bool := d.acceptsFrom d.start w

/-- Whether a list of labels is a word that the automaton accepts. -/
def acceptsLabels (d : DFA) (labels : List Label) : Bool := (labels.mapM id).any d.accepts

/-- Whether every state has a move under each of the symbols. -/
def isCompleteOver (d : DFA) (symbols : List Symbol) : Bool :=
  let m : Moves := d.outgoing
  d.states.all fun q => symbols.all fun a => (m.next q a).isSome

def isComplete (d : DFA) : Bool := d.isCompleteOver d.alphabet

def freshState (d : DFA) : State := d.states.foldl max d.start + 1

/-- The automaton with a move for every state and each symbol of both alphabets. Moves that are
missing lead to a new state that is not final and cannot be left; it is added only if needed. -/
def complete (d : DFA) (alphabet : List Symbol) : DFA :=
  let symbols := Ascending.ofList (d.alphabet ++ alphabet)
  if d.isCompleteOver symbols then
    ofParts d.states d.start d.final d.edges symbols d.subsets
  else
    let m : Moves := d.outgoing
    let sink := d.freshState
    let states := d.states ++ [sink]
    let missing := states.flatMap fun q => symbols.filterMap fun a =>
      if (m.next q a).isSome then none else some ⟨q, a, sink⟩
    ofParts states d.start d.final (d.edges ++ missing) symbols d.subsets

/-- The automaton that is left when all states but the given ones are taken out. -/
def restrict (d : DFA) (keep : List State) : DFA :=
  let kept := TreeSet.ofList keep compare
  ofParts keep d.start (d.final.filter kept.contains)
    (d.edges.filter fun e => kept.contains e.source && kept.contains e.target) d.alphabet
    (d.subsets.filter fun (q, _) => kept.contains q)

def prune (d : DFA) : DFA := d.restrict d.reachable

end DFA

end RegularLanguage
