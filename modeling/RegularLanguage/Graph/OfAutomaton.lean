import RegularLanguage.Graph.Basic
/-!
# Graphs of automata

Every state becomes a node and every edge an edge. Parallel edges, those between the same two nodes,
are told apart by keys, which count them from nought.

| here | `relang` |
| --- | --- |
| `Graph.ofNFA` | `automaton_to_graph` |
| `Summary`, `summary` | `AutomatonMeta`, `get_automaton_meta` |
| `mentionedStates`, `usedSymbols` | the states and symbols that `to_pyformlang` gives |
-/

namespace RegularLanguage

def Graph.ofNFA (n : NFA) : Graph where
  nodes := n.states.map fun q =>
    ⟨.number q, .flag (q == n.start), .flag (n.final.contains q)⟩
  links := n.edges.map fun e => ⟨.number e.source, .number e.target, .text (labelText e.label)⟩

/-- An edge of an automaton's graph with its key. -/
structure KeyedLink where
  source : State
  target : State
  key : Nat
  label : String
deriving DecidableEq

namespace NFA

/-- The edges of the graph by ascending sources. The edges of one source are listed target by
target, in the order that `arrange` gives to the targets, and then by their keys. -/
def keyedLinks (arrange : List State → List State) (n : NFA) : List KeyedLink :=
  let outgoing := n.outgoing
  n.states.flatMap fun q =>
    let out := outgoing.values q
    (arrange (out.map Prod.snd)).flatMap fun r =>
      (out.filter fun o => o.2 = r).mapIdx fun key o => ⟨q, r, key, labelText o.1⟩

/-- What is known of an automaton's size, and the labels that are in use. -/
structure Summary where
  states : Nat
  edges : Nat
  labels : List String
deriving DecidableEq

def summary (n : NFA) : Summary where
  states := n.states.length
  edges := n.edges.length
  labels := Ascending.ofList (n.edges.map fun e => labelText e.label)

/-- The states that are start, final or an end of an edge. -/
def mentionedStates (n : NFA) : List State :=
  Ascending.ofList (n.start :: n.final ++ n.edges.flatMap fun e => [e.source, e.target])

def usedSymbols (n : NFA) : List Symbol := Ascending.ofList (n.edges.filterMap Edge.label)

end NFA

end RegularLanguage
