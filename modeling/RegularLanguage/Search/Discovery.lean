import RegularLanguage.Search.Numbering
/-!
# Breadth-first discovery

A graph that is known only through its successor function is explored from a start node. Nodes are
numbered in the order in which they are found, and they are looked at in the order of their numbers.

| here | `relang` |
| --- | --- |
| `explore` | the loop over `frontier` in `determinize` |
-/

namespace RegularLanguage

/-- The nodes that have been found, and the arcs that leave those looked at, the latest arc first.
An arc is a number, a label and a number. -/
structure Discovery (κ α : Type) [Ord κ] where
  found : Numbering κ
  arcs : List (Nat × α × Nat)

namespace Discovery

variable {κ α : Type} [Ord κ]

def addArc (i : Nat) (d : Discovery κ α) (arc : α × κ) : Discovery κ α :=
  let (j, found) := d.found.intern arc.2
  ⟨found, (i, arc.1, j) :: d.arcs⟩

/-- Looks at the nodes from number `i` on, at most `fuel` of them. -/
def explore (successors : κ → List (α × κ)) : Nat → Nat → Discovery κ α → Discovery κ α
  | 0, _, d => d
  | fuel + 1, i, d =>
    match d.found.key? i with
    | none => d
    | some k => explore successors fuel (i + 1) ((successors k).foldl (addArc i) d)

/-- Explores a graph of at most `bound` nodes from a start node, which gets the number nought. -/
def ofStart (bound : Nat) (successors : κ → List (α × κ)) (start : κ) : Discovery κ α :=
  explore successors bound 0 ⟨(Numbering.intern {} start).2, []⟩

end Discovery

end RegularLanguage
