/-!
# Paths

The parts of a path are separated by slashes. Empty parts and parts that are a single point say
nothing and are left out, but two slashes at the beginning are kept.

The arguments of `--config` and `--dot-dir` are paths.
-/

namespace RegularLanguage.Command

/-- The parts of a path, `part` being the beginning of the first one in reverse. -/
def pathParts (part : List Char) : List Char → List String
  | [] => [String.ofList part.reverse]
  | c :: cs =>
    if c = '/' then String.ofList part.reverse :: pathParts [] cs else pathParts (c :: part) cs

/-- The slashes that a path begins with: two are kept, and more are the same as one. -/
def leadingSlashes (cs : List Char) : String :=
  match (cs.takeWhile (· = '/')).length with
  | 0 => ""
  | 2 => "//"
  | _ => "/"

/-- A path without the parts that say nothing. -/
def plainPath (path : String) : String :=
  let cs := path.toList
  let parts := (pathParts [] cs).filter fun part => part ≠ "" ∧ part ≠ "."
  let plain := leadingSlashes cs ++ "/".intercalate parts
  if plain = "" then "." else plain

def pathIn (directory file : String) : String :=
  if directory = "." then file
  else if directory.toList.all (· = '/') then directory ++ file
  else directory ++ "/" ++ file

end RegularLanguage.Command
