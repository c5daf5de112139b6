import RegularLanguage.Dialect.Basic
import RegularLanguage.Pattern.OpenGroup
/-!
# Reading patterns

A pattern is read from left to right in one scan. The groups that are still open are kept in a list,
so nesting may be as deep as one likes.

| here | `relang` |
| --- | --- |
| `literal` | `_literal` |
| `scan` | the loop of `_Parser.parse`, with `_parse_atom` |
| `parse` | `parse` |
-/

namespace RegularLanguage

namespace Dialect

def literal (d : Dialect) (c : Char) (position : Nat) : Except PatternError Regex :=
  if d.allows (String.singleton c) then .ok (.literal (String.singleton c))
  else .error (.notInAlphabet (String.singleton c) position)

/-- Reads the rest of a pattern from `position` on. `g` is the innermost open group, and `outer`
holds the places where the open groups begin, each with the group around it. -/
def scan (d : Dialect) (position : Nat) (g : OpenGroup) (outer : List (Nat × OpenGroup)) :
    List Char → Except PatternError Regex
  | [] => do
    let r ← g.close
    match outer with
    | [] => return r
    | (opening, _) :: _ => throw (.unmatchedOpening opening)
  | c :: cs =>
    if c = '(' then d.scan (position + 1) {} ((position, g) :: outer) cs
    else if c = ')' then do
      let r ← g.close
      match outer with
      | [] => throw (.unmatchedClosing position)
      | (_, around) :: outer => d.scan (position + 1) (around.push r) outer cs
    else if c = '|' then do
      d.scan (position + 1) (← g.bar position) outer cs
    else if c = '*' then do
      d.scan (position + 1) (← g.star position) outer cs
    else if c = d.escape then
      match cs with
      | [] => throw (.danglingEscape position)
      | e :: cs => do
        d.scan (position + 2) (g.push (← d.literal e (position + 1))) outer cs
    else if c = d.epsilon then d.scan (position + 1) (g.push .epsilon) outer cs
    else if c = d.empty then d.scan (position + 1) (g.push .empty) outer cs
    else do
      d.scan (position + 1) (g.push (← d.literal c position)) outer cs

/-- The expression that a pattern stands for. -/
def parse (d : Dialect) (pattern : String) : Except PatternError Regex :=
  d.scan 0 {} [] pattern.toList

end Dialect

end RegularLanguage
