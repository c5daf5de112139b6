import RegularLanguage.Json.Value
import RegularLanguage.Text.Integer
/-!
# Reading JSON

A strict reader: no comma after the last item, no raw control characters in strings, no zero in
front of a number, nothing after the value but white space. The words `NaN`, `Infinity` and
`-Infinity` are taken for numbers. Of a repeated key the last value counts. A text is refused for
the fault that is met first, be it one of form or an integer of too many digits.

`load_config` reads its files so, with `json.load`.
-/

namespace RegularLanguage.Json

/-- Why a text is not read. -/
inductive ReadError where
  | malformed
  | tooManyDigits (count : Nat)
deriving DecidableEq

/-- What has been read at the front of a text, and what follows. -/
abbrev Read (α : Type) := Except ReadError (α × List Char)

def skipSpace : List Char → List Char
  | [] => []
  | c :: cs => if c = ' ' ∨ c = '\t' ∨ c = '\n' ∨ c = '\r' then skipSpace cs else c :: cs

def hexValue? (c : Char) : Option Nat :=
  if '0' ≤ c ∧ c ≤ '9' then some (c.toNat - '0'.toNat)
  else if 'a' ≤ c ∧ c ≤ 'f' then some (c.toNat - 'a'.toNat + 10)
  else if 'A' ≤ c ∧ c ≤ 'F' then some (c.toNat - 'A'.toNat + 10)
  else none

def hexNumber? (a b c d : Char) : Option Nat := do
  pure ((((← hexValue? a) * 16 + (← hexValue? b)) * 16 + (← hexValue? c)) * 16 + (← hexValue? d))

/-- The character that a code unit stands for, if it is none of a pair. -/
def unitChar? (n : Nat) : Option Char :=
  if h : n.isValidChar then some (Char.ofNatAux n h) else none

/-- The character that two code units stand for together, the first high and the second low. -/
def pairChar? (high low : Nat) : Option Char :=
  if 0xd800 ≤ high ∧ high < 0xdc00 ∧ 0xdc00 ≤ low ∧ low < 0xe000 then
    unitChar? (0x10000 + (high - 0xd800) * 0x400 + (low - 0xdc00))
  else none

def escapedChar? : Char → Option Char
  | '"' => some '"'
  | '\\' => some '\\'
  | '/' => some '/'
  | 'b' => some '\x08'
  | 'f' => some '\x0c'
  | 'n' => some '\n'
  | 'r' => some '\r'
  | 't' => some '\t'
  | _ => none

/-- The rest of a string after its opening quote, `read` holding the characters so far, the last one
first. Four digits after `\u` are a code unit; a high one and a low one form one character. A code
unit that is half of a pair without the other half is refused, because a text holds Unicode scalar
values only; `json.load` keeps it. -/
def readString (read : List Char) : List Char → Read String
  | [] => .error .malformed
  | '"' :: cs => .ok (String.ofList read.reverse, cs)
  | '\\' :: 'u' :: a :: b :: c :: d :: '\\' :: 'u' :: e :: f :: g :: h :: cs =>
    match hexNumber? a b c d with
    | none => .error .malformed
    | some first =>
      match (hexNumber? e f g h).bind (pairChar? first) with
      | some ch => readString (ch :: read) cs
      | none =>
        match unitChar? first with
        | some ch => readString (ch :: read) ('\\' :: 'u' :: e :: f :: g :: h :: cs)
        | none => .error .malformed
  | '\\' :: 'u' :: a :: b :: c :: d :: cs =>
    match (hexNumber? a b c d).bind unitChar? with
    | some ch => readString (ch :: read) cs
    | none => .error .malformed
  | '\\' :: c :: cs =>
    match escapedChar? c with
    | some ch => readString (ch :: read) cs
    | none => .error .malformed
  | c :: cs => if c.toNat < 0x20 then .error .malformed else readString (c :: read) cs
termination_by cs => cs.length

def spanDigits (cs : List Char) : List Char × List Char :=
  (cs.takeWhile Char.isDigit, cs.dropWhile Char.isDigit)

def digitsValue (ds : List Char) : Nat :=
  ds.foldl (fun n d => 10 * n + (d.toNat - '0'.toNat)) 0

/-- The digits after a point, if there is a point with digits after it. -/
def readFraction : List Char → Option (List Char × List Char)
  | '.' :: cs =>
    match spanDigits cs with
    | ([], _) => none
    | (ds, rest) => some (ds, rest)
  | _ => none

def readExponent : List Char → Option (Int × List Char)
  | c :: cs =>
    if c = 'e' ∨ c = 'E' then
      let (negative, cs) := match cs with
        | '-' :: cs => (true, cs)
        | '+' :: cs => (false, cs)
        | cs => (false, cs)
      match spanDigits cs with
      | ([], _) => none
      | (ds, rest) =>
        let n : Int := digitsValue ds
        some (if negative then -n else n, rest)
    else none
  | [] => none

/-- A number without its sign: no zero in front of another digit, then a fraction and an exponent
if there are any. Without either it is an integer, whose digits are limited. -/
def readNumber (negative : Bool) (cs : List Char) : Read Value :=
  let whole := match cs with
    | '0' :: rest => (['0'], rest)
    | cs => spanDigits cs
  match whole with
  | ([], _) => .error .malformed
  | (ds, rest) =>
    match readFraction rest, readExponent ((readFraction rest).elim rest Prod.snd) with
    | none, none =>
      if Text.digitLimit < ds.length then .error (.tooManyDigits ds.length)
      else
        let n : Int := digitsValue ds
        .ok (.integer (if negative then -n else n), rest)
    | some (fs, rest), none =>
      .ok (.real (.ofDecimal negative (digitsValue (ds ++ fs)) (-fs.length)), rest)
    | none, some (e, rest) => .ok (.real (.ofDecimal negative (digitsValue ds) e), rest)
    | some (fs, _), some (e, rest) =>
      .ok (.real (.ofDecimal negative (digitsValue (ds ++ fs)) (e - fs.length)), rest)

mutual

/-- A value at the front of a text; `fuel` bounds how often values begin inside it. -/
def readValue : Nat → List Char → Read Value
  | 0, _ => .error .malformed
  | fuel + 1, cs =>
    match skipSpace cs with
    | 'n' :: 'u' :: 'l' :: 'l' :: cs => .ok (.null, cs)
    | 't' :: 'r' :: 'u' :: 'e' :: cs => .ok (.bool true, cs)
    | 'f' :: 'a' :: 'l' :: 's' :: 'e' :: cs => .ok (.bool false, cs)
    | 'N' :: 'a' :: 'N' :: cs => .ok (.real .nan, cs)
    | 'I' :: 'n' :: 'f' :: 'i' :: 'n' :: 'i' :: 't' :: 'y' :: cs =>
      .ok (.real (.infinite false), cs)
    | '-' :: 'I' :: 'n' :: 'f' :: 'i' :: 'n' :: 'i' :: 't' :: 'y' :: cs =>
      .ok (.real (.infinite true), cs)
    | '-' :: cs => readNumber true cs
    | '"' :: cs => (readString [] cs).map fun (s, rest) => (.string s, rest)
    | '[' :: cs =>
      match skipSpace cs with
      | ']' :: rest => .ok (.array [], rest)
      | cs => readItems fuel [] cs
    | '\x7b' :: cs =>
      match skipSpace cs with
      | '\x7d' :: rest => .ok (.object [], rest)
      | cs => readMembers fuel [] cs
    | cs => readNumber false cs

/-- The items of an array from the next one on, the earlier ones in reverse. -/
def readItems : Nat → List Value → List Char → Read Value
  | 0, _, _ => .error .malformed
  | fuel + 1, read, cs =>
    match readValue fuel cs with
    | .error e => .error e
    | .ok (v, rest) =>
      match skipSpace rest with
      | ',' :: cs => readItems fuel (v :: read) cs
      | ']' :: cs => .ok (.array (v :: read).reverse, cs)
      | _ => .error .malformed

/-- The members of an object from the next one on. -/
def readMembers : Nat → List (String × Value) → List Char → Read Value
  | 0, _, _ => .error .malformed
  | fuel + 1, read, cs =>
    match skipSpace cs with
    | '"' :: cs =>
      match readString [] cs with
      | .error e => .error e
      | .ok (key, rest) =>
        match skipSpace rest with
        | ':' :: cs =>
          match readValue fuel cs with
          | .error e => .error e
          | .ok (v, rest) =>
            match skipSpace rest with
            | ',' :: cs => readMembers fuel (setMember key v read) cs
            | '\x7d' :: cs => .ok (.object (setMember key v read), cs)
            | _ => .error .malformed
        | _ => .error .malformed
    | _ => .error .malformed

end

/-- The value that a whole text spells. -/
def read (text : String) : Except ReadError Value :=
  let cs := text.toList
  match readValue (2 * cs.length + 1) cs with
  | .ok (v, rest) => if (skipSpace rest).isEmpty then .ok v else .error .malformed
  | .error e => .error e

end RegularLanguage.Json
