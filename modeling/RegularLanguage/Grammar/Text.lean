import RegularLanguage.DFA.Table
import RegularLanguage.Grammar.RightLinear
import RegularLanguage.Search.Grouping
/-!
# Grammars as text

One line per variable that has productions: its name, an arrow, and the bodies in the order of their
texts. Items of a body are separated by spaces; a body without text is written `ε`.

| here | `relang` |
| --- | --- |
| `Variable.rank`, `late` | `_variable_order` |
| `toText` | `grammar_to_text` |
-/

namespace RegularLanguage.Grammar

open Std

namespace Variable

def name : Variable → String
  | start => "S"
  | state q => DFA.stateName q

/-- The place of a variable among others: states by their numbers, and the start variable between
the state of number minus two and that of minus one. -/
def rank : Variable → Int
  | start => -1
  | state q => q

/-- Whether a variable is written after others of its rank. -/
def late : Variable → Nat
  | start => 0
  | state _ => 1

instance : Ord Variable := ⟨compareLex (compareOn rank) (compareOn late)⟩

instance : TransOrd Variable :=
  inferInstanceAs (TransCmp (compareLex (compareOn rank) (compareOn late)))

instance : LawfulEqOrd Variable where
  eq_of_compare := by
    intro v w h
    have h' : compareLex (compareOn rank) (compareOn late) v w = .eq := h
    simp only [compareLex_eq_eq, compareOn, LawfulEqOrd.compare_eq_iff_eq] at h'
    cases v <;> cases w <;> simp_all [rank, late]

end Variable

def Item.text : Item → String
  | terminal a => a
  | nonterminal v => v.name

/-- The text of a body. -/
def bodyText (body : List Item) : String :=
  let text := " ".intercalate (body.map Item.text)
  if text.isEmpty then "ε" else text

def lineText (head : Variable) (bodies : List String) : String :=
  head.name ++ " -> " ++ " | ".intercalate (bodies.mergeSort fun a b => (compare a b).isLE) ++ "\n"

/-- The text of a grammar. -/
def toText (g : Grammar) : String :=
  let bodies : Grouping Variable String :=
    .ofPairs (g.productions.map fun p => (p.head, bodyText p.body))
  String.join (bodies.toList.map fun (head, texts) => lineText head texts)

end RegularLanguage.Grammar
