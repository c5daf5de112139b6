/-!
# Classes of characters given by ranges

A class of characters is a list of pairs, each the first and the last code point of a range.
-/

namespace RegularLanguage.Text

/-- Whether the code point of `c` lies in one of the ranges. -/
def within (ranges : List (Nat × Nat)) (c : Char) : Bool :=
  ranges.any fun range => range.1 ≤ c.toNat && c.toNat ≤ range.2

end RegularLanguage.Text
