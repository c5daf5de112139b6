import RegularLanguage.Text.Blank
import RegularLanguage.Text.Digit
import RegularLanguage.Text.Quoted
/-!
# Integers as text

Integers are read and written in decimal, and neither is done for more digits than a limit, which
guards against conversions that take too long.

White space around a number that is read is skipped. One sign may come first; then digits of any
script follow, between any two of which one underscore may stand. A number of too many digits is
refused before it is computed, and whatever follows it.

| here | `relang` |
| --- | --- |
| `readInteger` | `int` of a text, as `graph_to_nfa` calls it |
| `writeInteger`, `writing` | numbers in formatted texts, as in `_state_variable` and `to_table` |
| `digitLimit` | `sys.get_int_max_str_digits`, as it is by default |
-/

namespace RegularLanguage.Text

/-- Why an integer is not read. -/
inductive IntegerError where
  | malformed
  | tooManyDigits (count : Nat)
deriving DecidableEq

/-- The greatest number of digits that an integer may have, zeros in front included. -/
def digitLimit : Nat := 4300

/-- The message for too many digits, with what is known of them. -/
def limitText (found : String) : String :=
  "Exceeds the limit (" ++ toString digitLimit ++ " digits) for integer string conversion" ++
    found ++ "; use sys.set_int_max_str_digits() to increase the limit"

/-- The message for an integer that is not read. -/
def excessText (count : Nat) : String := limitText (": value has " ++ toString count ++ " digits")

def shownLength : Nat := 200

/-- The message for the text that is no integer. -/
def IntegerError.message (text : String) : IntegerError → String
  | malformed =>
    "invalid literal for int() with base 10: " ++
      String.ofList ((quoted text).toList.take shownLength)
  | tooManyDigits count => excessText count

/-- The values of the digits up to a character that is neither a digit nor an underscore, and the
text from there on, `read` holding the digits so far, the last one first. The text comes after a
digit; an underscore has to have digits on both sides. -/
def readDigits (read : List Nat) : List Char → Option (List Nat × List Char)
  | [] => some (read.reverse, [])
  | c :: cs =>
    match decimalValue? c with
    | some v => readDigits (v :: read) cs
    | none =>
      if c = '_' then
        match cs with
        | d :: rest => (decimalValue? d).bind fun v => readDigits (v :: read) rest
        | [] => none
      else some (read.reverse, c :: cs)

def digitsValue (ds : List Nat) : Nat := ds.foldl (fun n d => 10 * n + d) 0

/-- An unsigned number: at least one digit, not too many, and nothing after them. -/
def readNatural : List Char → Except IntegerError Nat
  | [] => .error .malformed
  | c :: cs =>
    match (decimalValue? c).bind fun v => readDigits [v] cs with
    | none => .error .malformed
    | some (ds, rest) =>
      if digitLimit < ds.length then .error (.tooManyDigits ds.length)
      else if rest.isEmpty then .ok (digitsValue ds)
      else .error .malformed

/-- The integer that a text spells. -/
def readInteger (text : String) : Except IntegerError Int :=
  match strip text.toList with
  | '-' :: cs => (readNatural cs).map fun n => -(n : Int)
  | '+' :: cs => (readNatural cs).map fun n => (n : Int)
  | cs => (readNatural cs).map fun n => (n : Int)

/-! ## Writing -/

/-- The number of decimal digits of an integer; a sign does not count. -/
def digitCount (n : Int) : Nat := (Nat.toDigits 10 n.natAbs).length

/-- Why an integer is not written. -/
inductive WriteError where
  | tooManyDigits
deriving DecidableEq

def WriteError.message : WriteError → String
  | tooManyDigits => limitText ""

/-- What has the integers `ns` written in it, unless one of them has too many digits. -/
def writing {α : Type} (ns : List Int) (written : α) : Except WriteError α :=
  if ∀ n ∈ ns, digitCount n ≤ digitLimit then .ok written else .error .tooManyDigits

def writeInteger (n : Int) : Except WriteError String := writing [n] (toString n)

theorem writing_of_forall_le {α : Type} {ns : List Int} (written : α)
    (h : ∀ n ∈ ns, digitCount n ≤ digitLimit) : writing ns written = .ok written :=
  if_pos h

theorem writing_of_exists_lt {α : Type} {ns : List Int} (written : α)
    (h : ∃ n ∈ ns, digitLimit < digitCount n) : writing ns written = .error .tooManyDigits := by
  obtain ⟨n, hn, hlong⟩ := h
  exact if_neg fun hall => Nat.not_le_of_lt hlong (hall n hn)

end RegularLanguage.Text
