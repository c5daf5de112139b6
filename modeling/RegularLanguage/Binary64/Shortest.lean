import RegularLanguage.Binary64.Basic
/-!
# The fewest digits that tell a number

A finite double precision number is told from all others by some of its decimal digits: every
decimal number that is nearer to it than to its neighbours is read as this number. Of these decimal
numbers one with the fewest digits is chosen, and of those the nearest.

Grids of decimal numbers are tried from the widest down, and the first that holds a decimal number
which is read as the number gives the digits.
-/

namespace RegularLanguage.Binary64

/-- A positive number and its neighbours. All three are multiples of ten to the `power`: the number
is `digits` times that, and the one above follows after `gap` times that. -/
structure Scaled where
  digits : Nat
  gap : Nat
  power : Int
  /-- Whether the number below is at half that distance. -/
  narrow : Bool
  /-- Whether a decimal number midway to a neighbour is read as this number. -/
  even : Bool

namespace Scaled

/-- The number of the given significand and exponent. -/
def ofParts (significand : Nat) (exponent : Int) : Scaled :=
  let gap := if exponent < 0 then Nat.pow 5 (-exponent).toNat else Nat.pow 2 exponent.toNat
  { digits := significand * gap
    gap
    power := min exponent 0
    narrow := 2 * significand = significandBound && leastExponent < exponent
    even := significand % 2 = 0 }

/-- Whether the decimal number `x` times ten to the power is read as this number. -/
def readsBack (s : Scaled) (x : Nat) : Bool :=
  let low := if s.narrow then 4 * s.digits - s.gap else 4 * s.digits - 2 * s.gap
  let high := 4 * s.digits + 2 * s.gap
  if s.even then low ≤ 4 * x && 4 * x ≤ high else low < 4 * x && 4 * x < high

/-- The multiple of `grid` that is nearest to the number among those that are read as it. Only the
two multiples around the number need to be looked at. -/
def onGrid? (s : Scaled) (grid : Nat) : Option Nat :=
  let below := s.digits / grid
  let low := below * grid
  let high := low + grid
  match s.readsBack low, s.readsBack high with
  | true, true =>
    let rest := 2 * (s.digits - low)
    some (if rest < grid ∨ (rest = grid ∧ below % 2 = 0) then low else high)
  | true, false => some low
  | false, true => some high
  | false, false => none

/-- The first decimal number that is found on the grids from ten to the `places` down to one. -/
def search (s : Scaled) : Nat → Nat
  | 0 => (s.onGrid? 1).getD s.digits
  | places + 1 =>
    match s.onGrid? (Nat.pow 10 (places + 1)) with
    | some x => x
    | none => s.search places

/-- The chosen decimal number, as a multiple of ten to the power. -/
def shortest (s : Scaled) : Nat := s.search ((Nat.toDigits 10 s.digits).length - 1)

end Scaled

end RegularLanguage.Binary64
