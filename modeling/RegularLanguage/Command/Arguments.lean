import RegularLanguage.Command.Log
import RegularLanguage.Command.Path
import RegularLanguage.Regex.Basic
import RegularLanguage.Text.Digit
import RegularLanguage.Text.Quoted
/-!
# Arguments of the command line

Options may stand anywhere. An option is written in full or by a beginning that belongs to no other
option, and its value follows as the next argument or after an equals sign. Of an option that is
given again the last value counts, but words add up. Two hyphens after an equals sign are no value
but leave the option without one. After two hyphens that stand alone no more options come. One
argument that is no option is the pattern. A command line with several faults is refused for the
one that is met first, but options that do not exist count last and ambiguous ones first.

| here | `relang` |
| --- | --- |
| `Setting` | the options of `_build_parser` |
| `Arguments.read` | `parse_args` |
-/

namespace RegularLanguage.Command

/-- What is given for an option: a text, or nothing. -/
inductive Given where
  | text (s : String)
  | nothing
deriving DecidableEq

namespace Given

/-- What stands after an equals sign. -/
def ofText (s : String) : Given := if s = "--" then nothing else text s

def toWord : Given → Word
  | text s => .ofText s
  | nothing => []

def shown : Given → String
  | text s => Text.quoted s
  | nothing => "[]"

/-- What is given, as the path of a file. -/
def toPath : Given → Given
  | text s => text (plainPath s)
  | nothing => nothing

end Given

/-- What the command line asks for. -/
structure Arguments where
  pattern : String
  alphabet : Option Given := none
  config : Option Given := none
  words : List Given := []
  dotDirectory : Option Given := none
  /-- The level of messages to show; none if the option for it was left without a value. -/
  level : Option Level := some .warning

/-- Why a command line is refused, or that it asks for help. -/
inductive ArgumentError where
  | help
  | unknownOption (text : String)
  | ambiguousOption (text : String)
  | missingValue (option : String)
  | unexpectedValue (option : String)
  | badLevel (text : String)
  | missingPattern
  | extraArgument (text : String)
deriving DecidableEq

inductive Setting where
  | alphabet
  | config
  | word
  | dotDirectory
  | level
deriving DecidableEq

inductive Choice where
  | help
  | setting (s : Setting)
deriving DecidableEq

def longNames : List (String × Choice) :=
  [("--help", .help), ("--alphabet", .setting .alphabet), ("--config", .setting .config),
    ("--word", .setting .word), ("--dot-dir", .setting .dotDirectory),
    ("--log-level", .setting .level)]

def names : List (String × Choice) := ("-h", .help) :: longNames

def isDecimal (c : Char) : Bool := (Text.decimalValue? c).isSome

/-- Whether characters are a number without a sign: digits, or digits after a point. -/
def isUnsignedNumber (cs : List Char) : Bool :=
  match cs.dropWhile isDecimal with
  | [] => !cs.isEmpty
  | '.' :: fraction => !fraction.isEmpty && fraction.all isDecimal
  | _ => false

/-- Whether characters are a negative number, so that they are no option. A line feed may end it. -/
def isNegativeNumber : List Char → Bool
  | '-' :: cs => isUnsignedNumber (if cs.getLast? = some '\n' then cs.dropLast else cs)
  | _ => false

def splitAtEquals (cs : List Char) : Option (String × String) :=
  match cs.dropWhile (· ≠ '=') with
  | _ :: after => some (String.ofList (cs.takeWhile (· ≠ '=')), String.ofList after)
  | [] => none

/-- What an argument is, when no two hyphens came before it. -/
inductive Kind where
  | plain
  | hyphens
  | option (name : String) (choice : Choice) (value : Option String)
  | unknown
  | ambiguous

/-- The option of which a name is a beginning. -/
def abbreviated (name : String) (value : Option String) : Option Kind :=
  match longNames.filter fun entry => name.toList.isPrefixOf entry.1.toList with
  | [] => none
  | [(full, choice)] => some (.option full choice value)
  | _ => some .ambiguous

def kindOf (text : String) : Kind :=
  let cs := text.toList
  match cs with
  | ['-', '-'] => .hyphens
  | ['-'] => .plain
  | '-' :: second :: tail =>
    match names.lookup text with
    | some choice => .option text choice none
    | none =>
      let (name, value) := match splitAtEquals cs with
        | some (name, value) => (name, some value)
        | none => (text, none)
      match value, names.lookup name with
      | some value, some choice => .option name choice (some value)
      | _, _ =>
        match if second = '-' then abbreviated name value else none with
        | some kind => kind
        | none =>
          if second = 'h' then .option "-h" .help (some (String.ofList tail))
          else if isNegativeNumber cs || cs.contains ' ' then .plain
          else .unknown
  | _ => .plain

structure Reading where
  /-- The arguments that are no options. -/
  plain : List String := []
  /-- Whether the latest argument is one of these. -/
  afterPlain : Bool := false
  /-- What looks like an option and is none. -/
  unknown : List String := []
  arguments : Arguments := { pattern := "" }

/-- Takes over what is given for an option. -/
def Reading.set (r : Reading) (s : Setting) (value : Given) : Except ArgumentError Reading :=
  let r := { r with afterPlain := false }
  let a := r.arguments
  match s with
  | .alphabet => .ok { r with arguments := { a with alphabet := some value } }
  | .config => .ok { r with arguments := { a with config := some value.toPath } }
  | .word => .ok { r with arguments := { a with words := a.words ++ [value] } }
  | .dotDirectory => .ok { r with arguments := { a with dotDirectory := some value.toPath } }
  | .level =>
    match value with
    | .nothing => .ok { r with arguments := { a with level := none } }
    | .text name =>
      match Level.ofName? name with
      | some level => .ok { r with arguments := { a with level := some level } }
      | none => .error (.badLevel name)

/-- Takes over all arguments from two hyphens on. The hyphens themselves are dropped if they stand
before the pattern or right after it. -/
def Reading.finish (r : Reading) (hyphens : String) (rest : List String) : Reading :=
  if r.plain.isEmpty || r.afterPlain then { r with plain := r.plain ++ rest }
  else { r with plain := r.plain ++ hyphens :: rest }

/-- Whether what is written together with an option is the option's letter, repeated. -/
def repeatsHelp (name value : String) : Bool :=
  name = "-h" && value ≠ "" && value.toList.all (· = 'h')

/-- Reads arguments up to two hyphens, then takes the rest as they are. -/
def readArguments (r : Reading) : List String → Except ArgumentError Reading
  | [] => .ok r
  | text :: rest =>
    match kindOf text with
    | .plain => readArguments { r with plain := r.plain ++ [text], afterPlain := true } rest
    | .hyphens => .ok (r.finish text rest)
    | .unknown => readArguments { r with unknown := r.unknown ++ [text], afterPlain := false } rest
    | .ambiguous => .error (.ambiguousOption text)
    | .option _ .help none => .error .help
    | .option name .help (some value) =>
      if repeatsHelp name value then .error .help else .error (.unexpectedValue name)
    | .option _ (.setting s) (some value) => do readArguments (← r.set s (.ofText value)) rest
    | .option name (.setting s) none =>
      match rest with
      | value :: rest =>
        match kindOf value with
        | .plain => do readArguments (← r.set s (.text value)) rest
        | _ => .error (.missingValue name)
      | [] => .error (.missingValue name)

/-- The first argument before two hyphens that is a beginning of several options. -/
def ambiguous? (texts : List String) : Option String :=
  (texts.takeWhile (· ≠ "--")).find? fun text =>
    match kindOf text with
    | .ambiguous => true
    | _ => false

/-- What a command line asks for. -/
def Arguments.read (texts : List String) : Except ArgumentError Arguments := do
  if let some text := ambiguous? texts then throw (.ambiguousOption text)
  let r ← readArguments {} texts
  match r.plain, r.unknown with
  | [pattern], [] => .ok { r.arguments with pattern }
  | [], _ => .error .missingPattern
  | [_], text :: _ => .error (.unknownOption text)
  | _ :: extra :: _, _ => .error (.extraArgument extra)

end RegularLanguage.Command
