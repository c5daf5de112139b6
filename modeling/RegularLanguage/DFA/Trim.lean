import RegularLanguage.DFA.Basic
/-!
# Trimming

Taking out the states that no accepted word passes.

| here | `relang` |
| --- | --- |
| `usefulOrStart` | `keep` of `trim` |
| `trim` | `trim` |
-/

namespace RegularLanguage.DFA

/-- The states that lie on a path from the start to a final state, and the start in any case. -/
def usefulOrStart (d : DFA) : List State :=
  let productive := Std.TreeSet.ofList d.productive compare
  d.reachable.filter fun q => q = d.start || productive.contains q

/-- The automaton without the states that no accepted word passes; its start is kept in any case.
It no longer tells what its states stand for. -/
def trim (d : DFA) : DFA := { d.restrict d.usefulOrStart with subsets := [] }

end RegularLanguage.DFA
