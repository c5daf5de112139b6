import RegularLanguage.Text.Ranges
/-!
# Blank characters

Spaces, tabulators and line ends of all scripts.

These are the characters that `strip` takes away.
-/

namespace RegularLanguage.Text

/-- Code points of white space. -/
def blankRanges : List (Nat × Nat) :=
  [(0x9, 0xd), (0x20, 0x20), (0x85, 0x85), (0xa0, 0xa0), (0x1680, 0x1680), (0x2000, 0x200a),
   (0x2028, 0x2029), (0x202f, 0x202f), (0x205f, 0x205f), (0x3000, 0x3000)]

def isBlank (c : Char) : Bool := within blankRanges c

/-- Drops white space at both ends. -/
def strip (cs : List Char) : List Char :=
  ((cs.dropWhile isBlank).reverse.dropWhile isBlank).reverse

end RegularLanguage.Text
