import RegularLanguage.Matrix.Automaton
/-!
# Products of matrix automata

Two automata run side by side on the symbols that they share. Which pairs are final is up to a rule
on the two flags; with the rule "unlike", an empty product means that both accept the same words.

| here | `relang` |
| --- | --- |
| `product` | `intersect_automata`, its `final_rule` being the rule |
| `DFA.isEquivalent` | `are_equivalent` |
-/

namespace RegularLanguage

namespace MatrixAutomaton

/-- Two automata side by side. The pair of `i` and `j` has the index `i * b.size + j`, and it is
final when the rule holds of the two flags. -/
def product (rule : Bool → Bool → Bool) (a b : MatrixAutomaton) : MatrixAutomaton where
  matrices := a.matrices.filterMap fun (symbol, m) =>
    (b.matrices.lookup symbol).map fun m' => (symbol, m.kronecker m')
  start := Mask.outer and a.start b.start
  final := Mask.outer rule a.final b.final

end MatrixAutomaton

/-- Whether two automata accept the same words: once both are complete over all their symbols, no
word may lead to a pair of a final and another state. -/
def DFA.isEquivalent (d e : DFA) : Bool :=
  (MatrixAutomaton.product xor (.ofNFA (d.complete e.alphabet).toNFA)
    (.ofNFA (e.complete d.alphabet).toNFA)).isEmpty

end RegularLanguage
