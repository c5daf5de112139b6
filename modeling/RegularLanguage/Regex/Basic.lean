/-!
# Regular expressions

Regular expressions over symbols that may be any texts, and the words that they denote.

| here | `relang` |
| --- | --- |
| `Regex` | `RegexNode`: `Empty`, `Epsilon`, `Literal`, `Concat`, `Union`, `Star` |
| `kind` | the name of a class of nodes, as `parse` logs it |
| `Word.ofText` | a text where an iterable of symbols is asked for |
-/

namespace RegularLanguage

/-- A symbol of a word. It may be any text, also the empty one. A text is a sequence of Unicode
scalar values, here and in the whole library: half of a surrogate pair is no character, and what
would be made of one alone is not told. -/
abbrev Symbol := String

abbrev Word := List Symbol

/-- The characters of a text, each a symbol of its own. -/
def Word.ofText (text : String) : Word := text.toList.map String.singleton

inductive Regex where
  /-- Denotes no word. -/
  | empty
  /-- Denotes the empty word. -/
  | epsilon
  /-- Denotes the word of one symbol. -/
  | literal (symbol : Symbol)
  | concat (left right : Regex)
  | union (left right : Regex)
  | star (inner : Regex)
deriving DecidableEq

namespace Regex

/-- The words that an expression denotes. -/
inductive Matches : Regex → Word → Prop where
  | epsilon : Matches epsilon []
  | literal (a : Symbol) : Matches (literal a) [a]
  | concat {r s : Regex} {u v : Word} (hu : Matches r u) (hv : Matches s v) :
      Matches (concat r s) (u ++ v)
  | unionLeft {r : Regex} (s : Regex) {w : Word} (h : Matches r w) : Matches (union r s) w
  | unionRight (r : Regex) {s : Regex} {w : Word} (h : Matches s w) : Matches (union r s) w
  | starNil (r : Regex) : Matches (star r) []
  | starCons {r : Regex} {u v : Word} (hu : Matches r u) (hv : Matches (star r) v) :
      Matches (star r) (u ++ v)

def size : Regex → Nat
  | empty | epsilon | literal _ => 1
  | concat r s | union r s => r.size + s.size + 1
  | star r => r.size + 1

/-- What a node is called. -/
def kind : Regex → String
  | empty => "Empty"
  | epsilon => "Epsilon"
  | literal _ => "Literal"
  | concat _ _ => "Concat"
  | union _ _ => "Union"
  | star _ => "Star"

/-- The same expression over renamed symbols. -/
def rename (f : Symbol → Symbol) : Regex → Regex
  | empty => empty
  | epsilon => epsilon
  | literal a => literal (f a)
  | concat r s => concat (r.rename f) (s.rename f)
  | union r s => union (r.rename f) (s.rename f)
  | star r => star (r.rename f)

end Regex

end RegularLanguage
