import RegularLanguage.Regex.Walk
/-!
# Patterns of expressions

An expression is written with the fewest parentheses: an operand gets them only where it binds more
loosely than its place allows. Concatenations and unions group to the left. A literal gets a
backslash in front where it would be read as something else.

| here | `relang` |
| --- | --- |
| `precedence` | `_PRECEDENCE` |
| `operandText` | `_wrap` |
| `literalText` | `_leaf_pattern`, for literals |
| `pushText` | what the loop of `to_pattern` does to `texts` |
| `toPattern` | `to_pattern` |
| `structuralPattern` | `to_pattern` by recursion |
-/

namespace RegularLanguage.Regex

def precedence : Regex → Nat
  | union _ _ => 0
  | concat _ _ => 1
  | star _ => 2
  | empty | epsilon | literal _ => 3

/-- Whether `w` occurs in a text as a piece without gaps. The empty text occurs everywhere. -/
def occursIn (w : List Char) : List Char → Bool
  | [] => w.isEmpty
  | c :: cs => w.isPrefixOf (c :: cs) || occursIn w cs

/-- The characters that a backslash goes in front of, in the order in which pieces of them count. -/
def specials : List Char := ['|', '*', '(', ')', '\\']

/-- The texts that stand for the empty word and for no word at all. -/
structure Markers where
  epsilon : String := "ε"
  empty : String := "∅"

def needsEscape (m : Markers) (a : Symbol) : Bool :=
  occursIn a.toList specials || a == m.epsilon || a == m.empty

def literalText (m : Markers) (a : Symbol) : String :=
  if needsEscape m a then "\\" ++ a else a

/-- An operand's text, in parentheses if the operand binds more loosely than its place allows. -/
def operandText (least : Nat) (r : Regex) (text : String) : String :=
  if r.precedence < least then "(" ++ text ++ ")" else text

/-- Replaces the texts of a node's operands, the last one on top, by the text of the node. -/
def pushText (m : Markers) : Regex → List String → Option (List String)
  | empty, texts => some (m.empty :: texts)
  | epsilon, texts => some (m.epsilon :: texts)
  | literal a, texts => some (literalText m a :: texts)
  | star r, text :: texts => some ((operandText 2 r text ++ "*") :: texts)
  | concat r s, right :: left :: texts =>
    some ((operandText 1 r left ++ operandText 2 s right) :: texts)
  | union r s, right :: left :: texts =>
    some ((operandText 0 r left ++ "|" ++ operandText 1 s right) :: texts)
  | _, _ => none

/-- The pattern of an expression, written in one walk with a stack of texts. -/
def toPattern (r : Regex) (m : Markers) : String :=
  match postOrder (pushText m) r [] with
  | some [text] => text
  | _ => ""

/-- The pattern of an expression by recursion on its structure. -/
def structuralPattern (m : Markers) : Regex → String
  | empty => m.empty
  | epsilon => m.epsilon
  | literal a => literalText m a
  | star r => operandText 2 r (r.structuralPattern m) ++ "*"
  | concat r s => operandText 1 r (r.structuralPattern m) ++ operandText 2 s (s.structuralPattern m)
  | union r s =>
    operandText 0 r (r.structuralPattern m) ++ "|" ++ operandText 1 s (s.structuralPattern m)

theorem walk_pushText (m : Markers) (r : Regex) (rest : List Task) (texts : List String) :
    walk (pushText m) (.enter r :: rest) texts =
      walk (pushText m) rest (r.structuralPattern m :: texts) := by
  induction r generalizing rest texts with
  | empty | epsilon | literal => simp [walk, pushText, structuralPattern]
  | concat r s ihr ihs => simp [walk, ihr, ihs, pushText, structuralPattern]
  | union r s ihr ihs => simp [walk, ihr, ihs, pushText, structuralPattern]
  | star r ih => simp [walk, ih, pushText, structuralPattern]

/-- The walk leaves one text, the one that the recursion gives. -/
theorem postOrder_pushText (m : Markers) (r : Regex) :
    postOrder (pushText m) r [] = some [r.structuralPattern m] := by
  simp [postOrder, walk_pushText, walk]

theorem toPattern_eq_structuralPattern (r : Regex) (m : Markers) :
    r.toPattern m = r.structuralPattern m := by
  simp [toPattern, postOrder_pushText]

end RegularLanguage.Regex
