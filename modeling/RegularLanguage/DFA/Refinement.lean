import RegularLanguage.DFA.Trim
import RegularLanguage.Search.Numbering
/-!
# Classes of states that no word tells apart

The states are split into final and other ones. Then, round after round, a class is split when a
symbol leads its members to different classes, until a round splits nothing.

| here | `relang` |
| --- | --- |
| `Partition.byKey` | `groups` and `class_of` of `_refine` |
| `signature` | `signature` of `_refine` |
| `refine`, `stateClasses` | `_refine` |
| `equivalenceClasses` | `equivalence_classes` |
-/

namespace RegularLanguage.DFA

open Std

/-- A partition of the states: how many classes there are, and the class of each state. -/
structure Partition where
  count : Nat
  classOf : TreeMap State Nat compare

/-- What a round looks at in a state: its class, then the class that each symbol leads to. -/
abbrev Signature := List (Option Nat)

namespace Partition

/-- The partition into states that agree under `key`. Classes are numbered in the order in which the
states bring them up. -/
def byKey {κ : Type} [Ord κ] (states : List State) (key : State → κ) : Partition :=
  let (numbering, classOf) := states.foldl
    (fun (numbering, classOf) q =>
      let (i, numbering) := numbering.intern (key q)
      (numbering, classOf.insert q i))
    (({} : Numbering κ), (∅ : TreeMap State Nat compare))
  ⟨numbering.size, classOf⟩

def signature (p : Partition) (m : Moves) (symbols : List Symbol) (q : State) : Signature :=
  p.classOf[q]? :: symbols.map fun a => (m.next q a).bind fun r => p.classOf[r]?

/-- The classes, each in ascending order, by their numbers. -/
def classes (p : Partition) : List (List State) :=
  let members : Grouping Nat State := .ofPairs (p.classOf.toList.map fun (q, i) => (i, q))
  members.toList.map Prod.snd

end Partition

def initialPartition (d : DFA) : Partition :=
  let final := TreeSet.ofList d.final compare
  .byKey d.states fun q => if final.contains q then 1 else 0

/-- Splits classes until a round leaves their number as it was; none if `fuel` rounds do not do. -/
def refine (states : List State) (m : Moves) (symbols : List Symbol) :
    Nat → Partition → Option Partition
  | 0, _ => none
  | fuel + 1, p =>
    let next := Partition.byKey states (p.signature m symbols)
    if next.count = p.count then some next else refine states m symbols fuel next

/-- The classes of states that no word tells apart, by ascending least members. Every round but the
last adds a class, so the rounds are fewer than the states and two. -/
def stateClasses (d : DFA) : List (List State) :=
  match refine d.states d.outgoing d.alphabet (d.states.length + 1) d.initialPartition with
  | some p => p.classes
  | none => []

def equivalenceClasses (d : DFA) : List (List State) := d.trim.stateClasses

end RegularLanguage.DFA
