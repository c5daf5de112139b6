import RegularLanguage.Binary64.Text
import RegularLanguage.Text.Quoted
/-!
# JSON values

Decoded JSON values and the text that messages show for them.

The text is that of `repr`. An integer in a value has been read, so it has no more digits than may
be written.
-/

namespace RegularLanguage.Json

/-- A JSON value. A number with a fraction or an exponent is a double precision number. An object
keeps the order in which its keys were first mentioned. -/
inductive Value where
  | null
  | bool (b : Bool)
  | integer (n : Int)
  | real (x : Binary64)
  | string (s : String)
  | array (items : List Value)
  | object (members : List (String × Value))

instance : Inhabited Value := ⟨.null⟩

namespace Value

mutual

/-- The text of a value in a message. -/
def text : Value → String
  | null => "None"
  | bool true => "True"
  | bool false => "False"
  | integer n => toString n
  | real x => x.text
  | string s => Text.quoted s
  | array items => "[" ++ itemTexts items ++ "]"
  | object members => "\x7b" ++ memberTexts members ++ "\x7d"

def itemTexts : List Value → String
  | [] => ""
  | [v] => v.text
  | v :: vs => v.text ++ ", " ++ itemTexts vs

def memberTexts : List (String × Value) → String
  | [] => ""
  | [(k, v)] => Text.quoted k ++ ": " ++ v.text
  | (k, v) :: members => Text.quoted k ++ ": " ++ v.text ++ ", " ++ memberTexts members

end

end Value

/-- Replaces the value of a key, or adds the key at the end. -/
def setMember (key : String) (value : Value) : List (String × Value) → List (String × Value)
  | [] => [(key, value)]
  | member :: members =>
    if member.1 = key then (key, value) :: members
    else member :: setMember key value members

end RegularLanguage.Json
