import RegularLanguage.Binary64.Shortest
/-!
# Double precision numbers as text

A number is written with the fewest digits that tell it: positionally from a ten thousandth up to
below ten to the sixteenth, and else with one digit before the point and an exponent of at least two
digits. A whole number written positionally has a nought after the point.

| here | `relang` |
| --- | --- |
| `text` | `repr` of a number that `json.load` gives |
-/

namespace RegularLanguage.Binary64

def trimZeros (ds : List Char) : List Char := (ds.reverse.dropWhile (· == '0')).reverse

/-- The digits of a fraction; there is always one. -/
def fraction (ds : List Char) : List Char := if ds.isEmpty then ['0'] else ds

/-- Digits whose point stands after the first `point` of them, zeros being added where there are
too few digits. -/
def positional (ds : List Char) (point : Int) : List Char :=
  if point ≤ 0 then '0' :: '.' :: (List.replicate (-point).toNat '0' ++ ds)
  else
    let whole := ds.take point.toNat ++ List.replicate (point.toNat - ds.length) '0'
    whole ++ '.' :: fraction (ds.drop point.toNat)

/-- Digits with a point after the first, if there are more, and an exponent of two digits or more. -/
def scientific (ds : List Char) (exponent : Int) : List Char :=
  let mantissa := match ds with
    | d :: e :: rest => d :: '.' :: e :: rest
    | ds => ds
  let power := Nat.toDigits 10 exponent.natAbs
  mantissa ++ 'e' :: (if exponent < 0 then '-' else '+') ::
    (List.replicate (2 - power.length) '0' ++ power)

/-- The text of a positive number of the given significand and exponent. -/
def magnitudeText (significand : Nat) (exponent : Int) : List Char :=
  let s := Scaled.ofParts significand exponent
  let ds := Nat.toDigits 10 s.shortest
  let point := s.power + ds.length
  if -4 < point ∧ point ≤ 16 then positional (trimZeros ds) point
  else scientific (trimZeros ds) (point - 1)

def text : Binary64 → String
  | nan => "nan"
  | infinite negative => if negative then "-inf" else "inf"
  | finite negative significand exponent =>
    let magnitude := if significand = 0 then ['0', '.', '0'] else magnitudeText significand exponent
    String.ofList (if negative then '-' :: magnitude else magnitude)

end RegularLanguage.Binary64
