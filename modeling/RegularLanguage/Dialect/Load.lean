import RegularLanguage.Dialect.Basic
import RegularLanguage.Json.Reader
/-!
# Dialects in configuration files

A configuration is a JSON object whose keys are among `alphabet`, `escape`, `epsilon` and `empty`;
a key that is missing leaves the default.

| here | `relang` |
| --- | --- |
| `configKeys` | `_CONFIG_KEYS` |
| `ofJson`, `load` | `load_config`, after and with `json.load` |
-/

namespace RegularLanguage

/-- Why a JSON value describes no dialect. -/
inductive ConfigError where
  | notObject
  | unknownKeys (keys : List String)
  | badAlphabet
  | badMarkers (e : MarkerError)

/-- The message for a fault in the file of the given path. -/
def ConfigError.message (path : String) : ConfigError → String
  | notObject => path ++ ": configuration must be a JSON object"
  | unknownKeys keys => path ++ ": unknown configuration keys " ++ Text.quotedList keys
  | badAlphabet => path ++ ": alphabet must be a string or a list of strings"
  | badMarkers e => e.message

/-- Why a text describes no dialect. -/
inductive LoadError where
  | notJson
  | tooManyDigits (count : Nat)
  | badConfig (e : ConfigError)

def LoadError.message (path : String) : LoadError → String
  | notJson => path ++ ": not a JSON text"
  | tooManyDigits count => Text.excessText count
  | badConfig e => e.message path

namespace Dialect

def configKeys : List String := ["alphabet", "escape", "epsilon", "empty"]

/-- The symbols of an alphabet: the characters of a text, or the texts of a list. -/
def readAlphabet : Json.Value → Except ConfigError (Option (List Symbol))
  | .null => .ok none
  | .string s => .ok (some (Word.ofText s))
  | .array items =>
    match items.mapM fun | .string s => some s | _ => none with
    | some symbols => .ok (some symbols)
    | none => .error .badAlphabet
  | _ => .error .badAlphabet

def member (members : List (String × Json.Value)) (key : String) (default : Json.Value) :
    Json.Value :=
  (members.lookup key).getD default

/-- The dialect that a configuration describes. -/
def ofJson : Json.Value → Except ConfigError Dialect
  | .object members => do
    let unknown := (members.map Prod.fst).filter (· ∉ configKeys)
    if unknown ≠ [] then throw (.unknownKeys (Ascending.ofList unknown))
    let alphabet ← readAlphabet (member members "alphabet" .null)
    (make alphabet (member members "escape" (.string "\\")) (member members "epsilon" (.string "ε"))
      (member members "empty" (.string "∅"))).mapError .badMarkers
  | _ => .error .notObject

/-- The dialect that the text of a configuration file describes. -/
def load (text : String) : Except LoadError Dialect :=
  match Json.read text with
  | .error .malformed => .error .notJson
  | .error (.tooManyDigits count) => .error (.tooManyDigits count)
  | .ok value => (ofJson value).mapError .badConfig

end Dialect

end RegularLanguage
