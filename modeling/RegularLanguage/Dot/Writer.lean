import RegularLanguage.Dot.Quote
import RegularLanguage.Graph.OfAutomaton
/-!
# Writing automata as DOT files

One line for each state and one for each edge of the graph of an automaton.

| here | `relang` |
| --- | --- |
| `ofNFA` | the file of `save_automaton_to_dot`, for numbers of any length |
| `writeNFA` | `save_automaton_to_dot` |
-/

namespace RegularLanguage.Dot

def flagText (b : Bool) : String := if b then "True" else "False"

def nodeLine (n : NFA) (q : State) : String :=
  write (toString q) ++ " [is_start=" ++ flagText (q == n.start) ++ ", is_final=" ++
    flagText (n.final.contains q) ++ "];\n"

def linkLine (link : KeyedLink) : String :=
  write (toString link.source) ++ " -> " ++ write (toString link.target) ++ " [key=" ++
    toString link.key ++ ", label=" ++ write link.label ++ "];\n"

/-- The file of an automaton: the states in ascending order, then the edges, those of one source
target by target in the order in which its edges bring the targets up. -/
def ofNFA (n : NFA) : String :=
  "digraph \x7b\n" ++ String.join (n.states.map (nodeLine n)) ++
    String.join ((n.keyedLinks List.eraseDups).map linkLine) ++ "\x7d\n"

/-- The file of an automaton, if the names of all states can be written. -/
def writeNFA (n : NFA) : Except Text.WriteError String := Text.writing n.states (ofNFA n)

end RegularLanguage.Dot
