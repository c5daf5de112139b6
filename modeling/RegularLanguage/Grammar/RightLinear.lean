import RegularLanguage.DFA.Basic
import RegularLanguage.Text.Integer
/-!
# Right-linear grammars of automata

A variable for each state derives the words that lead from the state to a final one, the empty word
left aside; the start variable derives all words that the automaton accepts.

| here | `relang` |
| --- | --- |
| `Variable.start` | `START_VARIABLE` |
| `Variable.state` | `_state_variable`, the state standing for its name |
| `Grammar` | the `productions` of a `CFG` |
| `useful` | `useful` of `dfa_to_regular_grammar` |
| `toGrammar` | the `productions` of `dfa_to_regular_grammar`, for numbers of any length |
| `writeGrammar` | `dfa_to_regular_grammar` |
-/

namespace RegularLanguage

namespace Grammar

/-- The variables of a grammar: the start variable and one for each state. -/
inductive Variable where
  | start
  | state (q : State)
deriving DecidableEq

inductive Item where
  | terminal (a : Symbol)
  | nonterminal (v : Variable)
deriving DecidableEq

structure Production where
  head : Variable
  body : List Item
deriving DecidableEq

end Grammar

/-- A grammar: its productions, each listed once. -/
structure Grammar where
  productions : List Grammar.Production
deriving DecidableEq

namespace Grammar

/-- The derivations of words from sentential forms, the leftmost variable being replaced first. The
list names the productions in the order of their use. -/
inductive Derives (g : Grammar) : List Item → List Production → Word → Prop where
  | nil : Derives g [] [] []
  | terminal (a : Symbol) {form : List Item} {used : List Production} {w : Word}
      (h : Derives g form used w) : Derives g (.terminal a :: form) used (a :: w)
  | produce {p : Production} {form : List Item} {used : List Production} {w : Word}
      (hp : p ∈ g.productions) (h : Derives g (p.body ++ form) used w) :
      Derives g (.nonterminal p.head :: form) (p :: used) w

end Grammar

namespace DFA

open Grammar

def useful (d : DFA) : List State :=
  let productive := Std.TreeSet.ofList d.productive compare
  d.reachable.filter productive.contains

/-- The productions of an edge: one that goes on at the edge's target, and one that ends there if
the target is final. -/
def edgeProductions (final : Std.TreeSet State compare) (e : Edge Symbol) : List Production :=
  ⟨.state e.source, [.terminal e.label, .nonterminal (.state e.target)]⟩ ::
    if final.contains e.target then [⟨.state e.source, [.terminal e.label]⟩] else []

/-- The grammar of an automaton. Edges that no accepted word passes have no productions. -/
def toGrammar (d : DFA) : Grammar :=
  let useful := Std.TreeSet.ofList d.useful compare
  let final := Std.TreeSet.ofList d.final compare
  let enter : List Production :=
    if useful.contains d.start then [⟨.start, [.nonterminal (.state d.start)]⟩] else []
  let stop : List Production := if final.contains d.start then [⟨.start, []⟩] else []
  let edges := d.edges.filter fun e => useful.contains e.source && useful.contains e.target
  ⟨enter ++ stop ++ edges.flatMap (edgeProductions final)⟩

/-- The grammar of an automaton, if the names of all its variables can be written. Every useful
state has a variable, and no other state has. -/
def writeGrammar (d : DFA) : Except Text.WriteError Grammar := Text.writing d.useful d.toGrammar

end DFA

end RegularLanguage
