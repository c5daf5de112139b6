/-!
# Double precision numbers

The numbers of the binary format with 53 significant bits, kept as a significand and an exponent of
two. A decimal number stands for the one that is nearest to it, and of two that are equally near for
the one with an even significand. All arithmetic is on whole numbers, so nothing is lost on the way.

| here | `relang` |
| --- | --- |
| `ofDecimal` | `float` of a text, as `json.load` calls it |
-/

namespace RegularLanguage

/-- A double precision number. A finite one is its significand times two to the exponent; the
significand is below `2 ^ 53`, and at least half of that unless the exponent is the least one. -/
inductive Binary64 where
  | finite (negative : Bool) (significand : Nat) (exponent : Int)
  | infinite (negative : Bool)
  | nan
deriving DecidableEq

namespace Binary64

def significandBound : Nat := Nat.pow 2 53

def leastExponent : Int := -1074

def greatestExponent : Int := 971

/-- The quotient rounded to the nearest whole number, from the middle to the even one. -/
def divNearest (n d : Nat) : Nat :=
  let below := n / d
  let rest := 2 * (n % d)
  if rest < d then below else if d < rest then below + 1 else below + below % 2

/-- A number times a power of `base` when the power is to be multiplied, and as it is otherwise. -/
def timesPower (base n : Nat) (power : Int) : Nat := n * Nat.pow base power.toNat

/-- The greatest power of two that is at most `n / d`. -/
def floorLog2 (n d : Nat) : Int :=
  let guess : Int := (n.log2 : Int) - d.log2
  if timesPower 2 d guess ≤ timesPower 2 n (-guess) then guess else guess - 1

/-- The number that is nearest to `n / d`, which is not nought. -/
def ofRatio (negative : Bool) (n d : Nat) : Binary64 :=
  let exponent := max leastExponent (floorLog2 n d - 52)
  let rounded := divNearest (timesPower 2 n (-exponent)) (timesPower 2 d exponent)
  let (significand, exponent) :=
    if rounded = significandBound then (rounded / 2, exponent + 1) else (rounded, exponent)
  if greatestExponent < exponent then .infinite negative
  else .finite negative significand exponent

/-- The number that is nearest to `digits` times ten to the `power`. Numbers of at least ten to the
310 are too great and those below ten to the -330 too small; they are told apart first, so that no
power is computed that does not matter. -/
def ofDecimal (negative : Bool) (digits : Nat) (power : Int) : Binary64 :=
  if digits = 0 then .finite negative 0 leastExponent
  else if 310 < power then .infinite negative
  else if (digits.log2 : Int) + 1 ≤ 3 * (-power - 330) then .finite negative 0 leastExponent
  else ofRatio negative (timesPower 10 digits power) (timesPower 10 1 (-power))

end Binary64

end RegularLanguage
