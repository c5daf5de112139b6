import RegularLanguage.Text.Unprintable
/-!
# Quoted text

A text is quoted by apostrophes, or by double quotes when it holds an apostrophe and no double
quote. The quote in use and the backslash get a backslash in front; line feed, carriage return and
tabulator are written by their letters, other characters without a glyph by their code points.

| here | `relang` |
| --- | --- |
| `quoted` | `repr` of a text, `!r` in messages |
| `quotedList` | `repr` of a list of texts |
-/

namespace RegularLanguage.Text

/-- Hexadecimal digits of a number, with zeros in front up to the width. -/
def hexadecimal (width n : Nat) : List Char :=
  let digits := Nat.toDigits 16 n
  List.replicate (width - digits.length) '0' ++ digits

/-- A character by its code point, in the shortest of the three forms that holds it. -/
def byCodePoint (c : Char) : List Char :=
  let n := c.toNat
  if n < 0x100 then '\\' :: 'x' :: hexadecimal 2 n
  else if n < 0x10000 then '\\' :: 'u' :: hexadecimal 4 n
  else '\\' :: 'U' :: hexadecimal 8 n

def quotedChar (quote c : Char) : List Char :=
  if c = quote ∨ c = '\\' then ['\\', c]
  else if c = '\n' then ['\\', 'n']
  else if c = '\r' then ['\\', 'r']
  else if c = '\t' then ['\\', 't']
  else if isUnprintable c then byCodePoint c
  else [c]

/-- The quote to put around a text. -/
def quoteFor (cs : List Char) : Char :=
  if '\'' ∈ cs ∧ '"' ∉ cs then '"' else '\''

/-- A text between quotes. -/
def quoted (text : String) : String :=
  let cs := text.toList
  let quote := quoteFor cs
  String.ofList (quote :: cs.flatMap (quotedChar quote) ++ [quote])

def quotedList (texts : List String) : String :=
  "[" ++ ", ".intercalate (texts.map quoted) ++ "]"

end RegularLanguage.Text
