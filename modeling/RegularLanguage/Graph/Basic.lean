import RegularLanguage.Graph.Attribute
import RegularLanguage.NFA.Basic
/-!
# Automata as labelled graphs

The layout of an automaton as a directed graph with parallel edges: nodes carry the flags of start
and final states, edges carry labels, and silent moves are labelled by `ε`.

| here | `relang` |
| --- | --- |
| `silentLabel`, `labelText` | `EPSILON_LABEL`, `_label` |
| `Graph` | `MultiDiGraph`, with the attributes that `automaton_to_graph` sets |
| `addNode`, `addLink` | `add_node`, `add_edge` |
| `freshKey` | the key that `add_edge` chooses |
-/

namespace RegularLanguage

def silentLabel : String := "ε"

def labelText (label : Label) : String := label.getD silentLabel

namespace Graph

structure Node where
  name : Name
  isStart : Attribute
  isFinal : Attribute
deriving DecidableEq

structure Link where
  source : Name
  target : Name
  label : Attribute
deriving DecidableEq

/-- What a mention of a node says; it may leave flags open. -/
structure NodeMention where
  name : Name
  isStart : Option Attribute := none
  isFinal : Option Attribute := none

/-- What a mention of an edge says; it may leave the label open. A key tells the edge from those
that are parallel to it, and an edge without one is a new one. -/
structure LinkMention where
  source : Name
  target : Name
  key : Option Name := none
  label : Option Attribute := none

end Graph

/-- A labelled graph: nodes and edges in the order of their first mention. The ends of edges are
nodes. -/
structure Graph where
  nodes : List Graph.Node := []
  links : List Graph.Link := []
deriving DecidableEq

namespace Graph

/-- Takes over the flags that a mention gives. -/
def Node.update (node : Node) (m : NodeMention) : Node :=
  { node with isStart := m.isStart.getD node.isStart, isFinal := m.isFinal.getD node.isFinal }

/-- Adds a node, or gives further flags to the node of that name. -/
def addNode (nodes : List Node) (m : NodeMention) : List Node :=
  if nodes.any fun node => node.name = m.name then
    nodes.map fun node => if node.name = m.name then node.update m else node
  else nodes ++ [⟨m.name, m.isStart.getD .missing, m.isFinal.getD .missing⟩]

def LinkMention.ends (m : LinkMention) : List NodeMention :=
  [⟨m.source, none, none⟩, ⟨m.target, none, none⟩]

def LinkMention.joins (m : LinkMention) (link : Link) : Bool :=
  link.source = m.source ∧ link.target = m.target

/-- The key of a new edge that is parallel to edges of the given keys: how many they are, or else
the next number that is no key yet. -/
def freshKey (used : List Name) : Name :=
  let free := (List.range' used.length (used.length + 1)).find? fun (k : Nat) => .number k ∉ used
  .number (free.getD used.length : Nat)

/-- Adds an edge, or gives a further label to the edge of that key. Edges come with their keys. -/
def addLink (links : List (Name × Link)) (m : LinkMention) : List (Name × Link) :=
  let used := (links.filter fun entry => m.joins entry.2).map Prod.fst
  let key := m.key.getD (freshKey used)
  if key ∈ used then
    links.map fun entry =>
      if entry.1 = key ∧ m.joins entry.2 then
        (key, { entry.2 with label := m.label.getD entry.2.label })
      else entry
  else links ++ [(key, ⟨m.source, m.target, m.label.getD .missing⟩)]

/-- The graph that is built by mentioning nodes and then edges. -/
def ofMentions (nodes : List NodeMention) (links : List LinkMention) : Graph where
  nodes := (nodes ++ links.flatMap LinkMention.ends).foldl addNode []
  links := (links.foldl addLink []).map Prod.snd

end Graph

end RegularLanguage
