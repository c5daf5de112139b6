import RegularLanguage.Automaton.Basic
/-!
# Nondeterministic automata

Automata that may have silent moves. A word is accepted when some path from the start to a final
state spells it; the automaton is run by following all paths at once.

| here | `relang` |
| --- | --- |
| `NFA.fault?`, `NFA.build` | the constructor of `NFA` |
| `Label`, `none` | symbols of transitions, `EPSILON` |
| `closure` | `epsilon_closure` |
| `move`, `step` | `move`, `step` |
| `acceptsLabels`, `accepts` | `accepts`, of words with `EPSILON` in them and of others |
| `hasSilentMoves` | `has_epsilon_transitions` |
| `withoutSilent` | `remove_epsilon_transitions` |
-/

namespace RegularLanguage

/-- The label of a move: a symbol, or none for a silent move. -/
abbrev Label := Option Symbol

structure NFA extends Automaton Label
deriving DecidableEq

namespace NFA

/-- The automaton of the given parts; symbols on edges belong to its alphabet. -/
def ofParts (states : List State) (start : State) (final : List State) (edges : List (Edge Label))
    (alphabet : List Symbol) : NFA where
  toAutomaton := .ofParts states start final edges (edges.filterMap Edge.label ++ alphabet)

/-- The first fault of the given parts. Edges are looked at in their order, an edge together with
all others of its source and label: their source must be a state, then all their targets. -/
def fault? (states : List State) (start : State) (final : List State) (edges : List (Edge Label)) :
    Option AutomatonError :=
  let known := Std.TreeSet.ofList states compare
  if !known.contains start then some .unknownStart
  else if !final.all known.contains then some .unknownFinal
  else
    let stray := edges.filter fun e => !known.contains e.target
    edges.findSome? fun e =>
      if !known.contains e.source then some (.unknownSource e.source)
      else if stray.any fun f => f.source = e.source ∧ f.label = e.label then
        some (.unknownTargetFrom e.source)
      else none

def build (states : List State) (start : State) (final : List State) (edges : List (Edge Label))
    (alphabet : List Symbol) : Except AutomatonError NFA :=
  match fault? states start final edges with
  | some e => .error e
  | none => .ok (ofParts states start final edges alphabet)

/-- An automaton whose parts fit together and whose alphabet holds all symbols in use. -/
structure IsValid (n : NFA) : Prop extends n.IsProper where
  label_mem : ∀ e ∈ n.edges, ∀ a ∈ e.label, a ∈ n.alphabet

/-- The moves of an automaton, arranged for running it. -/
structure Moves where
  outgoing : Grouping State (Label × State)
  silent : Digraph State

def moves (n : NFA) : Moves where
  outgoing := n.outgoing
  silent := .ofArcs ((n.edges.filter fun e => e.label = none).map fun e => (e.source, e.target))

namespace Moves

/-- The states that silent moves lead to from the given ones, these included. -/
def closure (m : Moves) (qs : List State) : List State := m.silent.reach qs

/-- The states that one move under the label leads to. -/
def move (m : Moves) (qs : List State) (label : Label) : List State :=
  Ascending.ofList (qs.flatMap fun q =>
    (m.outgoing.values q).filterMap fun out => if out.1 = label then some out.2 else none)

/-- The states that one move under the label, and silent moves after it, lead to. -/
def step (m : Moves) (qs : List State) (label : Label) : List State := m.closure (m.move qs label)

end Moves

def hasSilentMoves (n : NFA) : Bool := n.edges.any fun e => e.label = none

def closure (n : NFA) (qs : List State) : List State := n.moves.closure qs

def move (n : NFA) (qs : List State) (label : Label) : List State := n.moves.move qs label

def step (n : NFA) (qs : List State) (label : Label) : List State := n.moves.step qs label

/-- The states that a list of labels leads to from the start. -/
def run (n : NFA) (labels : List Label) : List State :=
  let m := n.moves
  labels.foldl m.step (m.closure [n.start])

def acceptsLabels (n : NFA) (labels : List Label) : Bool := Ascending.meets (n.run labels) n.final

def accepts (n : NFA) (w : Word) : Bool := n.acceptsLabels (w.map some)

/-- A path of moves from one state to another, and the word that it spells. -/
inductive Path (n : NFA) : State → Word → State → Prop where
  | nil (q : State) : Path n q [] q
  | silent {p q r : State} {w : Word} (h : ⟨p, none, q⟩ ∈ n.edges) (rest : Path n q w r) :
      Path n p w r
  | symbol {p q r : State} {a : Symbol} {w : Word} (h : ⟨p, some a, q⟩ ∈ n.edges)
      (rest : Path n q w r) : Path n p (a :: w) r

/-- The states that each symbol, with silent moves before and after it, leads to from a state. -/
def symbolTargets (n : NFA) (m : Moves) (q : State) : List (Symbol × List State) :=
  let qs := m.closure [q]
  n.alphabet.map fun a => (a, m.step qs (some a))

/-- An automaton without silent moves that accepts the same words. A state gets a move to every
state that the move's symbol leads to by way of silent moves; states that cannot be reached from
the start are left out. -/
def withoutSilent (n : NFA) : NFA :=
  let m := n.moves
  let targets : Std.TreeMap State (List (Symbol × List State)) compare :=
    .ofList (n.states.map fun q => (q, n.symbolTargets m q)) compare
  let targetsOf (q : State) : List (Symbol × List State) := targets.getD q []
  let kept := reach (fun q => (targetsOf q).flatMap Prod.snd) n.states.length [n.start]
  let edges := kept.flatMap fun q => (targetsOf q).flatMap fun (a, rs) =>
    rs.map fun r => ⟨q, some a, r⟩
  let final := Std.TreeSet.ofList n.final compare
  ofParts kept n.start (kept.filter fun q => (m.closure [q]).any final.contains) edges n.alphabet

end NFA

end RegularLanguage
