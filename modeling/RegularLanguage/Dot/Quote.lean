import RegularLanguage.Text.Alphanumeric
import RegularLanguage.Text.Digit
/-!
# Texts in DOT files

A text is written bare where the format allows it. Otherwise it stands between double quotes, and
double quotes, line feeds and carriage returns in it are escaped; a backslash is not.

This is how texts stand in the files of `save_automaton_to_dot`.
-/

namespace RegularLanguage.Dot

/-- The words that mean something to the format, in any case of letters. -/
def keywords : List String := ["graph", "subgraph", "digraph", "node", "edge", "strict"]

def isEnclosed (first last : Char) (cs : List Char) : Bool :=
  match cs with
  | c :: rest => c == first && rest.getLast? == some last
  | [] => false

/-- Whether a text is a number: digits with at most one point, before or after which digits may be
missing, but not on both sides. -/
def isNumeral (cs : List Char) : Bool :=
  let rest := cs.dropWhile Char.isDigit
  let whole := cs.takeWhile Char.isDigit
  match rest with
  | [] => !whole.isEmpty
  | '.' :: fraction => fraction.all Char.isDigit && !(whole.isEmpty && fraction.isEmpty)
  | _ => false

/-- Whether a text is of a form, or is when a line feed at its end is left out. -/
def isLine (form : List Char → Bool) (cs : List Char) : Bool :=
  form cs || (cs.getLast? = some '\n' && form cs.dropLast)

def isWrapped (cs : List Char) : Bool :=
  isLine (isEnclosed '"' '"') cs || isLine (isEnclosed '<' '>') cs

def needsQuotes (text : String) : Bool :=
  let cs := text.toList
  match cs with
  | [] => true
  | c :: _ =>
    if keywords.contains (text.map Char.toLower) then true
    else if cs.all Text.isDigit then false
    else if cs.all Text.isAlphanumeric then Text.isDigit c
    else if isWrapped cs then false
    else if cs.any fun c => c.toNat > 0x7f || c.toNat == 0 then true
    else !isLine isNumeral cs

def escapeChar : Char → List Char
  | '"' => ['\\', '"']
  | '\n' => ['\\', 'n']
  | '\r' => ['\\', 'r']
  | c => [c]

/-- A text between double quotes. -/
def inQuotes (text : String) : String :=
  String.ofList ('"' :: text.toList.flatMap escapeChar ++ ['"'])

/-- A text as it is written in a file. -/
def write (text : String) : String := if needsQuotes text then inQuotes text else text

end RegularLanguage.Dot
