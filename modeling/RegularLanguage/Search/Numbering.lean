import Std.Data.TreeMap
/-!
# Numbering things in the order in which they turn up

A numbering gives each key the number of keys that were met before it.

| here | `relang` |
| --- | --- |
| `Numbering.intern` | `get_state` of `determinize` with `subset_to_state`; `groups` of `_refine` |
-/

namespace RegularLanguage

open Std

/-- The keys met so far, and the number of each. -/
structure Numbering (κ : Type) [Ord κ] where
  keys : Array κ := #[]
  numbers : TreeMap κ Nat compare := ∅

namespace Numbering

variable {κ : Type} [Ord κ]

def size (n : Numbering κ) : Nat := n.keys.size

def number? (n : Numbering κ) (k : κ) : Option Nat := n.numbers[k]?

def key? (n : Numbering κ) (i : Nat) : Option κ := n.keys[i]?

/-- The number of a key, which becomes the next free one if the key is new. -/
def intern (n : Numbering κ) (k : κ) : Nat × Numbering κ :=
  match n.number? k with
  | some i => (i, n)
  | none => (n.size, ⟨n.keys.push k, n.numbers.insert k n.size⟩)

end Numbering

end RegularLanguage
