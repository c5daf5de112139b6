import RegularLanguage.Graph.Basic
/-!
# Automata read from graphs

A graph is an automaton when exactly one node is flagged as the start and all names spell integers.
Nodes whose names spell the same integer are one state. Flags and labels count by their texts.

| here | `relang` |
| --- | --- |
| `finalNames` | `final_nodes` of `graph_to_nfa` |
| `toNFA` | `graph_to_nfa` |
-/

namespace RegularLanguage

/-- Why a graph is no automaton. -/
inductive GraphError where
  | startCount (found : Nat)
  | badName (name : String) (e : Text.IntegerError)
deriving DecidableEq

def GraphError.message : GraphError → String
  | startCount found => "expected exactly one start node, found " ++ toString found
  | badName name e => e.message name

namespace Graph

/-- The label that the text of an attribute stands for. -/
def readLabel (a : Attribute) : Label :=
  if a.plainText = silentLabel then none else some a.plainText

def finalNames (g : Graph) : List Name :=
  (g.nodes.filter fun node => node.isFinal.isSet).map Node.name

/-- All names in the order in which they are looked at: final nodes, then the ends of edges (by
sources in the order of nodes, then by targets in the order in which they were first joined to the
source), then all nodes. -/
def namesInOrder (g : Graph) : List Name :=
  let names := g.nodes.map Node.name
  let ends := names.flatMap fun source =>
    let out := g.links.filter fun link => link.source = source
    (out.map Link.target).eraseDups.flatMap fun target => [source, target]
  g.finalNames ++ ends ++ names

def nameFault? (name : Name) : Option GraphError :=
  match name.toNumber with
  | .ok _ => none
  | .error e => some (.badName name.toText e)

/-- The fault of the first name that is no state. -/
def fault? (g : Graph) : Option GraphError :=
  if g.nodes.all fun node => (nameFault? node.name).isNone then none
  else g.namesInOrder.findSome? nameFault?

def stateOf (name : Name) : State :=
  match name.toNumber with
  | .ok q => q
  | .error _ => 0

/-- The automaton that a graph lays out. -/
def toNFA (g : Graph) : Except GraphError NFA :=
  match (g.nodes.filter fun node => node.isStart.isSet).map Node.name with
  | [start] =>
    match g.fault? with
    | some e => .error e
    | none =>
      .ok (.ofParts (g.nodes.map fun node => stateOf node.name) (stateOf start)
        (g.finalNames.map stateOf)
        (g.links.map fun link =>
          ⟨stateOf link.source, readLabel link.label, stateOf link.target⟩) [])
  | starts => .error (.startCount starts.length)

end Graph

end RegularLanguage
