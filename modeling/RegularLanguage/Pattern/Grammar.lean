import RegularLanguage.Dialect.Basic
/-!
# The grammar of patterns

Which texts are patterns, and which expression a pattern stands for, apart from how patterns are
read. A body is empty or a union of terms, a term is a concatenation of factors, a factor is an atom
with stars after it, and an atom is a symbol, a marker or a body in parentheses.

The grammar is that of the docstring of `_Parser`, an operand of a bar being no empty one.
-/

namespace RegularLanguage.Dialect

mutual

/-- A text is an atom that stands for an expression. -/
inductive IsAtom (d : Dialect) : List Char → Regex → Prop where
  | symbol {c : Char} (plain : c ∉ operators ++ [d.escape, d.epsilon, d.empty])
      (allowed : d.allows (String.singleton c) = true) :
      IsAtom d [c] (.literal (String.singleton c))
  | escaped {c : Char} (allowed : d.allows (String.singleton c) = true) :
      IsAtom d [d.escape, c] (.literal (String.singleton c))
  | epsilon : IsAtom d [d.epsilon] .epsilon
  | empty : IsAtom d [d.empty] .empty
  | group {cs : List Char} {r : Regex} (body : IsBody d cs r) : IsAtom d ('(' :: cs ++ [')']) r

inductive IsFactor (d : Dialect) : List Char → Regex → Prop where
  | atom {cs : List Char} {r : Regex} (h : IsAtom d cs r) : IsFactor d cs r
  | star {cs : List Char} {r : Regex} (h : IsFactor d cs r) : IsFactor d (cs ++ ['*']) (.star r)

inductive IsTerm (d : Dialect) : List Char → Regex → Prop where
  | factor {cs : List Char} {r : Regex} (h : IsFactor d cs r) : IsTerm d cs r
  | concat {cs cs' : List Char} {r s : Regex} (left : IsTerm d cs r) (right : IsFactor d cs' s) :
      IsTerm d (cs ++ cs') (.concat r s)

/-- A text is a union of terms that stands for an expression. -/
inductive IsUnion (d : Dialect) : List Char → Regex → Prop where
  | term {cs : List Char} {r : Regex} (h : IsTerm d cs r) : IsUnion d cs r
  | union {cs cs' : List Char} {r s : Regex} (left : IsUnion d cs r) (right : IsTerm d cs' s) :
      IsUnion d (cs ++ '|' :: cs') (.union r s)

/-- A text is a body that stands for an expression. -/
inductive IsBody (d : Dialect) : List Char → Regex → Prop where
  | nothing : IsBody d [] .epsilon
  | union {cs : List Char} {r : Regex} (h : IsUnion d cs r) : IsBody d cs r

end

/-- A pattern stands for an expression. -/
def Denotes (d : Dialect) (pattern : String) (r : Regex) : Prop := d.IsBody pattern.toList r

end RegularLanguage.Dialect
