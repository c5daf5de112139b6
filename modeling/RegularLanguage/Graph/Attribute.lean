import RegularLanguage.Text.Integer
/-!
# Names and attributes in graphs

Graphs come from many places, so the names of their nodes may be numbers or texts, and flags and
labels may be of several types. What counts is the text of a value, less one pair of double quotes
around it.

| here | `relang` |
| --- | --- |
| `unquote`, `plainText` | `_unquote` |
| `isSet` | `_is_set` |
| `Name.toNumber` | `int` of a node in `graph_to_nfa` |
-/

namespace RegularLanguage.Graph

/-- The name of a node, or of an edge among those parallel to it. A number and its text are
different names. -/
inductive Name where
  | number (n : Int)
  | text (s : String)
deriving DecidableEq

/-- The value of an attribute. -/
inductive Attribute where
  | text (s : String)
  | flag (b : Bool)
  | number (n : Int)
  | missing
deriving DecidableEq

/-- A text without the double quotes at its ends, if it has them at both. -/
def unquote (cs : List Char) : List Char :=
  match cs with
  | '"' :: rest => if rest.getLast? = some '"' then rest.dropLast else cs
  | _ => cs

namespace Name

def toText : Name → String
  | number n => toString n
  | text s => s

/-- The number that a name is or spells. -/
def toNumber : Name → Except Text.IntegerError Int
  | number n => .ok n
  | text s => Text.readInteger s

end Name

namespace Attribute

def toText : Attribute → String
  | text s => s
  | flag true => "True"
  | flag false => "False"
  | number n => toString n
  | missing => "None"

/-- The text of a value without the double quotes around it. -/
def plainText (a : Attribute) : String := String.ofList (unquote a.toText.toList)

def isSet (a : Attribute) : Bool := ["True", "true", "1"].contains a.plainText

end Attribute

end RegularLanguage.Graph
