import RegularLanguage.DFA.Refinement
/-!
# Minimization

The smallest automaton for a language: its states are the classes of states that no word tells
apart, numbered by their least members.

| here | `relang` |
| --- | --- |
| `classNumbers` | `class_index` of `minimize` |
| `quotient` | the loop over `classes` in `minimize` |
| `minimize`, `minimizeComplete` | `minimize`, without and with `complete` |
-/

namespace RegularLanguage.DFA

open Std

/-- The number of the class of each state, classes being numbered in their order. -/
def classNumbers (classes : List (List State)) : TreeMap State State compare :=
  .ofList (classes.mapIdx fun i members => members.map fun q => (q, (i : State))).flatten compare

def representatives (classes : List (List State)) : List (State × State) :=
  (classes.mapIdx fun i members => members.head?.map fun q => ((i : State), q)).filterMap id

/-- The automaton whose states are the given classes, numbered in their order. The first member of
a class tells where the class leads. -/
def quotient (d : DFA) (classes : List (List State)) : DFA :=
  let numbers := classNumbers classes
  let members := representatives classes
  let final := TreeSet.ofList d.final compare
  let m : Moves := d.outgoing
  let edges := members.flatMap fun (i, q) => d.alphabet.filterMap fun a =>
    (m.next q a).bind fun r => numbers[r]?.map fun j => ⟨i, a, j⟩
  ofParts (members.map Prod.fst) (numbers.getD d.start 0)
    ((members.filter fun (_, q) => final.contains q).map Prod.fst) edges d.alphabet []

/-- The smallest partial automaton that accepts the same words. -/
def minimize (d : DFA) : DFA := d.trim.quotient d.equivalenceClasses

def emptyLanguage (alphabet : List Symbol) : DFA :=
  ofParts [0] 0 [] (alphabet.map fun a => ⟨0, a, 0⟩) alphabet []

/-- The smallest complete automaton over the alphabet that accepts the same words. -/
def minimizeComplete (d : DFA) : DFA :=
  let result := d.minimize
  if result.final.isEmpty then emptyLanguage d.alphabet else result.complete []

end RegularLanguage.DFA
