import RegularLanguage.Graph.Basic
/-!
# Reading DOT files

Files of the layout that is written here: a directed graph of statements for nodes and edges, each
with a list of attributes. The text of an attribute is taken as it stands in the file.

| here | `relang` |
| --- | --- |
| `readGraph` | `read_graph_from_dot` |
-/

namespace RegularLanguage.Dot

/-- A piece of a file: a sign, an arrow, or a word as it is written. -/
inductive Token where
  | sign (c : Char)
  | arrow
  | word (cs : List Char)
deriving DecidableEq

def signs : List Char := ['\x7b', '\x7d', '[', ']', '=', ',', ';']

def isSpace (c : Char) : Bool := c = ' ' || c = '\n' || c = '\t' || c = '\r'

/-- Whether a word without quotes ends before a character. -/
def endsWord (c : Char) : Bool := isSpace c || signs.contains c

/-- What the reader is in the midst of, with the characters of the word so far, the last first. -/
inductive Mode where
  | between
  | bare (read : List Char)
  | quoted (read : List Char)
  | escaped (read : List Char)
  | bracketed (depth : Nat) (read : List Char)

/-- The pieces of a file. A word may stand in double quotes, where a backslash guards the next
character, or in angle brackets, which may be nested. -/
def tokens : Mode → List Char → List Token
  | .between, [] => []
  | .between, '-' :: '>' :: cs => .arrow :: tokens .between cs
  | .between, c :: cs =>
    if isSpace c then tokens .between cs
    else if signs.contains c then .sign c :: tokens .between cs
    else if c = '"' then tokens (.quoted ['"']) cs
    else if c = '<' then tokens (.bracketed 0 ['<']) cs
    else tokens (.bare [c]) cs
  | .bare read, [] => [.word read.reverse]
  | .bare read, c :: cs =>
    if isSpace c then .word read.reverse :: tokens .between cs
    else if signs.contains c then .word read.reverse :: .sign c :: tokens .between cs
    else tokens (.bare (c :: read)) cs
  | .quoted _, [] => []
  | .quoted read, c :: cs =>
    if c = '\\' then tokens (.escaped (c :: read)) cs
    else if c = '"' then .word (c :: read).reverse :: tokens .between cs
    else tokens (.quoted (c :: read)) cs
  | .escaped _, [] => []
  | .escaped read, c :: cs => tokens (.quoted (c :: read)) cs
  | .bracketed _ _, [] => []
  | .bracketed depth read, c :: cs =>
    if c = '<' then tokens (.bracketed (depth + 1) (c :: read)) cs
    else if c = '>' then
      match depth with
      | 0 => .word (c :: read).reverse :: tokens .between cs
      | depth + 1 => tokens (.bracketed depth (c :: read)) cs
    else tokens (.bracketed depth (c :: read)) cs

/-- Attributes up to the closing bracket, and what follows. -/
def readAttributes : List Token → Option (List (String × String) × List Token)
  | .sign ']' :: rest => some ([], rest)
  | .sign ',' :: rest => readAttributes rest
  | .word key :: .sign '=' :: .word value :: rest =>
    (readAttributes rest).map fun (attributes, rest) =>
      ((String.ofList key, String.ofList value) :: attributes, rest)
  | _ => none

inductive Statement where
  | node (name : String) (attributes : List (String × String))
  | link (source target : String) (attributes : List (String × String))

/-- The name that a word spells: it may be in double quotes. -/
def nodeName (cs : List Char) : String := String.ofList (Graph.unquote cs)

/-- Statements up to the closing brace; at most `fuel` of them. -/
def readStatements : Nat → List Token → Option (List Statement)
  | 0, _ => none
  | fuel + 1, tokens =>
    match tokens with
    | [.sign '\x7d'] => some []
    | .sign ';' :: rest => readStatements fuel rest
    | .word source :: .arrow :: .word target :: .sign '[' :: rest => do
      let (attributes, rest) ← readAttributes rest
      pure (.link (nodeName source) (nodeName target) attributes :: (← readStatements fuel rest))
    | .word name :: .sign '[' :: rest => do
      let (attributes, rest) ← readAttributes rest
      pure (.node (nodeName name) attributes :: (← readStatements fuel rest))
    | _ => none

def readFile (text : String) : Option (List Statement) :=
  match tokens .between text.toList with
  | .word kind :: .sign '\x7b' :: rest =>
    if kind = "digraph".toList then readStatements (rest.length + 1) rest else none
  | _ => none

def attribute? (attributes : List (String × String)) (key : String) : Option Graph.Attribute :=
  (attributes.lookup key).map .text

/-- The graph of a file. -/
def readGraph (text : String) : Option Graph :=
  (readFile text).map fun statements =>
    .ofMentions
      (statements.filterMap fun
        | .node name attributes =>
          some ⟨.text name, attribute? attributes "is_start", attribute? attributes "is_final"⟩
        | .link _ _ _ => none)
      (statements.filterMap fun
        | .node _ _ => none
        | .link source target attributes =>
          some ⟨.text source, .text target, (attributes.lookup "key").map .text,
            attribute? attributes "label"⟩)

end RegularLanguage.Dot
