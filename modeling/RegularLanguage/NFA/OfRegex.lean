import RegularLanguage.NFA.Builder
import RegularLanguage.Regex.Walk
/-!
# Automata of expressions

Every node of an expression becomes a fragment with a start and an end. A leaf has one move from its
start to its end, or none; a concatenation joins two fragments, and unions and stars put a new start
and a new end around theirs. All joints are silent moves.

| here | `relang` |
| --- | --- |
| `Fragment` | `Fragment` |
| `Fragment.ofLeaf` | `_leaf_fragment` |
| `Fragment.concat`, `union`, `star` | the cases of `_combine` |
| `pushFragment` | what the loop of `compile_to_nfa` does to `fragments` |
| `assemble`, `toNFA` | `compile_to_nfa` |
| `fragment` | `compile_to_nfa` by recursion |
-/

namespace RegularLanguage

/-- A part of an automaton that is entered at `start` and left at `accept`. -/
structure Fragment where
  start : State
  accept : State
deriving DecidableEq

namespace Fragment

/-- Two fresh states, joined under the label if there is one. -/
def ofLeaf (label : Option Label) (b : NFA.Builder) : Fragment × NFA.Builder :=
  let (start, b) := b.addState
  let (accept, b) := b.addState
  match label with
  | some label => (⟨start, accept⟩, b.addEdge start label accept)
  | none => (⟨start, accept⟩, b)

def concat (left right : Fragment) (b : NFA.Builder) : Fragment × NFA.Builder :=
  (⟨left.start, right.accept⟩, b.addSilent left.accept right.start)

def union (left right : Fragment) (b : NFA.Builder) : Fragment × NFA.Builder :=
  let (start, b) := b.addState
  let (accept, b) := b.addState
  (⟨start, accept⟩,
    (((b.addSilent start left.start).addSilent start right.start).addSilent
      left.accept accept).addSilent right.accept accept)

def star (inner : Fragment) (b : NFA.Builder) : Fragment × NFA.Builder :=
  let (start, b) := b.addState
  let (accept, b) := b.addState
  (⟨start, accept⟩,
    (((b.addSilent start inner.start).addSilent start accept).addSilent
      inner.accept inner.start).addSilent inner.accept accept)

end Fragment

namespace Regex

/-- What the walk has built: the fragments that still wait for their node, the last one on top. -/
abbrev Assembly := List Fragment × NFA.Builder

/-- Replaces the fragments of a node's operands by the fragment of the node. -/
def pushFragment : Regex → Assembly → Option Assembly
  | empty, (fs, b) => let (f, b) := Fragment.ofLeaf none b; some (f :: fs, b)
  | epsilon, (fs, b) => let (f, b) := Fragment.ofLeaf (some none) b; some (f :: fs, b)
  | literal a, (fs, b) => let (f, b) := Fragment.ofLeaf (some (some a)) b; some (f :: fs, b)
  | concat _ _, (right :: left :: fs, b) => let (f, b) := left.concat right b; some (f :: fs, b)
  | union _ _, (right :: left :: fs, b) => let (f, b) := left.union right b; some (f :: fs, b)
  | star _, (inner :: fs, b) => let (f, b) := inner.star b; some (f :: fs, b)
  | _, _ => none

/-- The fragment of an expression, built in one walk with a stack of fragments. -/
def assemble (r : Regex) (b : NFA.Builder) : Option (Fragment × NFA.Builder) :=
  match postOrder pushFragment r ([], b) with
  | some ([f], b) => some (f, b)
  | _ => none

/-- The fragment of an expression by recursion on its structure. -/
def fragment : Regex → NFA.Builder → Fragment × NFA.Builder
  | empty, b => Fragment.ofLeaf none b
  | epsilon, b => Fragment.ofLeaf (some none) b
  | literal a, b => Fragment.ofLeaf (some (some a)) b
  | concat r s, b =>
    let (left, b) := r.fragment b
    let (right, b) := s.fragment b
    left.concat right b
  | union r s, b =>
    let (left, b) := r.fragment b
    let (right, b) := s.fragment b
    left.union right b
  | star r, b =>
    let (inner, b) := r.fragment b
    inner.star b

theorem walk_pushFragment (r : Regex) (rest : List Task) (fs : List Fragment) (b : NFA.Builder) :
    walk pushFragment (.enter r :: rest) (fs, b) =
      walk pushFragment rest ((r.fragment b).1 :: fs, (r.fragment b).2) := by
  induction r generalizing rest fs b with
  | empty | epsilon | literal => simp [walk, pushFragment, fragment]
  | concat r s ihr ihs => simp [walk, ihr, ihs, pushFragment, fragment]
  | union r s ihr ihs => simp [walk, ihr, ihs, pushFragment, fragment]
  | star r ih => simp [walk, ih, pushFragment, fragment]

/-- The walk leaves one fragment, the one that the recursion gives. -/
theorem assemble_eq_fragment (r : Regex) (b : NFA.Builder) :
    r.assemble b = some (r.fragment b) := by
  simp [assemble, postOrder, walk_pushFragment, walk]

/-- The automaton of an expression, with further symbols declared in its alphabet. -/
def toNFA (r : Regex) (alphabet : List Symbol) : NFA :=
  match r.assemble {} with
  | some (f, b) => .ofParts b.states f.start [f.accept] b.edges alphabet
  | none => .ofParts [0] 0 [] [] alphabet

end Regex

end RegularLanguage
