import RegularLanguage.Ascending
import RegularLanguage.Json.Value
import RegularLanguage.Regex.Basic
/-!
# Dialects of the pattern language

The operators of patterns are fixed. A dialect chooses the characters that escape a symbol and that
stand for the empty word and for no word, and it may allow only the symbols of an alphabet. The
seven special characters are different (`Dialect.distinct`), which makes reading unambiguous.

| here | `relang` |
| --- | --- |
| `operators` | `OPERATORS` |
| `Dialect` | `RegexConfig`; the default values are those of `DEFAULT_CONFIG` |
| `readMarker`, `make` | `RegexConfig.__post_init__` |
| `reserved`, `allows`, `withAlphabet` | `reserved`, `allows`, `with_alphabet` |
-/

namespace RegularLanguage

def operators : List Char := ['|', '*', '(', ')']

/-- A dialect of the pattern language. -/
structure Dialect where
  /-- The symbols that may be used, in ascending order; `none` allows all. -/
  alphabet : Option (List Symbol) := none
  escape : Char := '\\'
  epsilon : Char := 'ε'
  empty : Char := '∅'
  distinct : (operators ++ [escape, epsilon, empty]).Nodup := by decide
deriving DecidableEq

/-- Why three values are no markers of a dialect. -/
inductive MarkerError where
  | notOneCharacter (value : Json.Value)
  | isOperator (c : Char)
  | repeated

def MarkerError.message : MarkerError → String
  | notOneCharacter value => "marker " ++ value.text ++ " must be a single character"
  | isOperator c => "marker " ++ Text.quoted (String.singleton c) ++ " clashes with an operator"
  | repeated => "escape, epsilon and empty markers must differ"

namespace Dialect

def reserved (d : Dialect) : List Char :=
  Ascending.ofList (operators ++ [d.escape, d.epsilon, d.empty])

def allows (d : Dialect) (a : Symbol) : Bool := d.alphabet.all (·.contains a)

/-- The same markers with another alphabet. -/
def withAlphabet (d : Dialect) (alphabet : Option (List Symbol)) : Dialect :=
  { d with alphabet := alphabet.map Ascending.ofList }

/-- A marker is a text of one character that is no operator. -/
def readMarker (value : Json.Value) : Except MarkerError Char :=
  match value with
  | .string s =>
    match s.toList with
    | [c] => if c ∈ operators then .error (.isOperator c) else .ok c
    | _ => .error (.notOneCharacter value)
  | _ => .error (.notOneCharacter value)

/-- The dialect with the given alphabet and markers. The markers are looked at in the order in
which they are given, and are compared last. -/
def make (alphabet : Option (List Symbol)) (escape epsilon empty : Json.Value) :
    Except MarkerError Dialect := do
  let escape ← readMarker escape
  let epsilon ← readMarker epsilon
  let empty ← readMarker empty
  if distinct : (operators ++ [escape, epsilon, empty]).Nodup then
    return { alphabet := alphabet.map Ascending.ofList, escape, epsilon, empty, distinct }
  else
    throw .repeated

theorem withAlphabet_markers (d : Dialect) (alphabet : Option (List Symbol)) :
    let d' := d.withAlphabet alphabet
    d'.escape = d.escape ∧ d'.epsilon = d.epsilon ∧ d'.empty = d.empty :=
  ⟨rfl, rfl, rfl⟩

theorem allows_withAlphabet (d : Dialect) (alphabet : Option (List Symbol)) (a : Symbol) :
    (d.withAlphabet alphabet).allows a = true ↔ ∀ symbols ∈ alphabet, a ∈ symbols := by
  cases alphabet <;> simp [withAlphabet, allows]

end Dialect

end RegularLanguage
