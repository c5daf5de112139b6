import RegularLanguage.DFA.Minimize
import RegularLanguage.DFA.Subset
import RegularLanguage.NFA.OfRegex
import RegularLanguage.Pattern.Parser
/-!
# Automata of patterns

The way from a pattern to the smallest automaton of its language. The symbols that the dialect
allows belong to the alphabets of all automata.

| here | `relang` |
| --- | --- |
| `nfa`, `dfa`, `minimalDFA` | `regex_to_nfa`, `regex_to_dfa`, `regex_to_min_dfa` |
-/

namespace RegularLanguage.Dialect

/-- The symbols that are declared by the dialect; none if all are allowed. -/
def declared (d : Dialect) : List Symbol := d.alphabet.getD []

/-- The automaton with silent moves that a pattern stands for. -/
def nfa (d : Dialect) (pattern : String) : Except PatternError NFA :=
  (d.parse pattern).map fun r => r.toNFA d.declared

def dfa (d : Dialect) (pattern : String) : Except PatternError DFA :=
  (d.nfa pattern).map fun n => n.determinize d.declared false

def minimalDFA (d : Dialect) (pattern : String) : Except PatternError DFA :=
  (d.dfa pattern).map DFA.minimize

end RegularLanguage.Dialect
