import RegularLanguage.DFA.Basic
/-!
# Pairs of states that some word tells apart

All pairs of states are gone through, again and again. A pair is marked when one state is final and
the other is not, or when some symbol leads it to a marked pair. When a pass marks nothing, the
pairs that are not marked are the ones that no word tells apart.

| here | `relang` |
| --- | --- |
| `Pair` | a set of two states |
| `markPass` | the loop over `pairs` in `distinguishable_pairs` |
| `markAll` | the loop while `changed` |
| `distinguishablePairs` | `distinguishable_pairs` |
-/

namespace RegularLanguage.DFA

open Std

/-- Two states, the smaller one first. -/
structure Pair where
  first : State
  second : State
deriving DecidableEq

namespace Pair

instance : Ord Pair := ⟨compareLex (compareOn first) (compareOn second)⟩

instance : TransOrd Pair :=
  inferInstanceAs (TransCmp (compareLex (compareOn first) (compareOn second)))

instance : LawfulEqOrd Pair where
  eq_of_compare := by
    intro p q h
    have h' : compareLex (compareOn first) (compareOn second) p q = .eq := h
    simp only [compareLex_eq_eq, compareOn, LawfulEqOrd.compare_eq_iff_eq] at h'
    cases p
    cases q
    simp_all

def ofStates (p q : State) : Pair := if p ≤ q then ⟨p, q⟩ else ⟨q, p⟩

end Pair

/-- The pairs of different members of an ascending list. -/
def pairs : List State → List Pair
  | [] => []
  | q :: qs => qs.map (fun r => ⟨q, r⟩) ++ pairs qs

abbrev Marks := TreeSet Pair compare

def leadsToMark (m : Moves) (symbols : List Symbol) (marks : Marks) (p : Pair) : Bool :=
  symbols.any fun a =>
    match m.next p.first a, m.next p.second a with
    | some r, some s => marks.contains (.ofStates r s)
    | _, _ => false

/-- One pass over all pairs. Marks count as soon as they are set. -/
def markPass (m : Moves) (symbols : List Symbol) (all : List Pair) (marks : Marks) : Marks :=
  all.foldl
    (fun marks p =>
      if !marks.contains p && leadsToMark m symbols marks p then marks.insert p else marks)
    marks

/-- Passes until one marks nothing; none if `fuel` passes do not do. -/
def markAll (m : Moves) (symbols : List Symbol) (all : List Pair) : Nat → Marks → Option Marks
  | 0, _ => none
  | fuel + 1, marks =>
    let next := markPass m symbols all marks
    if next.size = marks.size then some marks else markAll m symbols all fuel next

/-- The pairs of states that some word tells apart, in ascending order. Missing moves are made up
for by completing the automaton first. -/
def distinguishablePairs (d : DFA) : List Pair :=
  let c := d.complete []
  let all := pairs c.states
  let final := TreeSet.ofList c.final compare
  let base := all.filter fun p => final.contains p.first != final.contains p.second
  let own := TreeSet.ofList d.states compare
  match markAll c.outgoing c.alphabet all (all.length + 1) (TreeSet.ofList base compare) with
  | some marks => marks.toList.filter fun p => own.contains p.first && own.contains p.second
  | none => []

end RegularLanguage.DFA
