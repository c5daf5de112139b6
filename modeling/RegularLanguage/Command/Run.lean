import RegularLanguage.Command.Arguments
import RegularLanguage.Command.Path
import RegularLanguage.DFA.Table
import RegularLanguage.Dialect.Load
import RegularLanguage.Dot.Writer
import RegularLanguage.Grammar.Text
import RegularLanguage.Pattern.Automaton
/-!
# The command line program

A pattern is turned into the smallest automaton of its language. The program prints the automaton's
table and its grammar, tells which of the given words are accepted, and writes the automata of all
stages to files when a directory is given.

| here | `relang` |
| --- | --- |
| `Stages.ofRegex` | the stages of `main`: `compile_to_nfa`, `determinize`, `minimize` |
| `chooseDialect` | `config` of `main` |
| `runFor` | `main`, after `parse_args` |
| `run` | `main` |
-/

namespace RegularLanguage.Command

/-- A file that shows the automaton of the given name. -/
structure DotFile where
  directory : String
  automaton : String
  text : String

namespace DotFile

def name (f : DotFile) : String := f.automaton ++ ".dot"

def path (f : DotFile) : String := pathIn f.directory f.name

def entry (f : DotFile) : Entry := ⟨.info, f.automaton ++ " saved to " ++ f.path⟩

end DotFile

/-- What a run leaves behind: its exit status, what it printed, and the files that it wrote. -/
structure Outcome where
  exit : Nat
  stdout : String := ""
  stderr : String := ""
  files : List DotFile := []

/-- Why a file cannot be read. -/
inductive FileError where
  | notFound
  | notPermitted
  | notDirectory
  | isDirectory
  | nameTooLong
deriving DecidableEq

def FileError.reason : FileError → String
  | notFound => "[Errno 2] No such file or directory"
  | notPermitted => "[Errno 13] Permission denied"
  | notDirectory => "[Errno 20] Not a directory"
  | isDirectory => "[Errno 21] Is a directory"
  | nameTooLong => "[Errno 36] File name too long"

def FileError.message (path : String) (e : FileError) : String :=
  e.reason ++ ": " ++ Text.quoted path

structure Stages where
  nfa : NFA
  dfa : DFA
  minimal : DFA

/-- The automata of an expression under a dialect. -/
def Stages.ofRegex (d : Dialect) (r : Regex) : Stages :=
  let nfa := r.toNFA d.declared
  let dfa := nfa.determinize d.declared false
  { nfa, dfa, minimal := dfa.minimize }

def Stages.log (s : Stages) (pattern : String) (r : Regex) : List Entry :=
  let nfa := toString s.nfa.states.length
  let dfa := toString s.dfa.states.length
  let minimal := toString s.minimal.states.length
  [⟨.debug, "parsed " ++ Text.quoted pattern ++ " into " ++ r.kind⟩,
    ⟨.debug, "compiled NFA with " ++ nfa ++ " states"⟩,
    ⟨.debug, "determinized NFA with " ++ nfa ++ " states into DFA with " ++ dfa ++ " states"⟩,
    ⟨.debug, "minimized DFA from " ++ dfa ++ " to " ++ minimal ++ " states"⟩,
    ⟨.info, "NFA: " ++ nfa ++ " states, DFA: " ++ dfa ++ " states, minimal DFA: " ++ minimal ++
      " states"⟩]

def verdictLine (d : DFA) (word : Given) : String :=
  word.shown ++ (if d.accepts word.toWord then ": accepted\n" else ": rejected\n")

/-- What is printed for an automaton and some words. The states of a smallest automaton are numbered
from nought, so only one of more than `10 ^ digitLimit` states has names that are too long to be
written (`stages_writable`), and the limit is left aside here. -/
def report (d : DFA) (words : List Given) : String :=
  d.toTable ++ "\n" ++ d.toGrammar.toText ++ String.join (words.map (verdictLine d))

def Stages.files (s : Stages) (directory : String) : List DotFile :=
  [⟨directory, "nfa", Dot.ofNFA s.nfa⟩, ⟨directory, "dfa", Dot.ofNFA s.dfa.toNFA⟩,
    ⟨directory, "min_dfa", Dot.ofNFA s.minimal.toNFA⟩]

/-- What is printed about a fault of a pattern: the fault, the pattern, and a mark below its
place. -/
def faultText (pattern : String) (e : PatternError) : String :=
  "error: " ++ e.message ++ "\n  " ++ pattern ++ "\n  " ++ "".pushn ' ' e.position ++ "^\n"

/-- The dialect of the configuration file of the given path, or the message why there is none. No
file has a path with a null character. -/
def loadDialect (contents : String → Except FileError String) (path : String) :
    Except String Dialect := do
  if '\x00' ∈ path.toList then throw "embedded null byte"
  let text ← (contents path).mapError fun e => e.message path
  (Dialect.load text).mapError fun e => e.message path

/-- What keeps a run from its pattern. -/
inductive SetupError where
  /-- An option that has to have a value was left without one. -/
  | noValue
  | badConfig (path message : String)

def SetupError.outcome : SetupError → Outcome
  | noValue => { exit := 1 }
  | badConfig path message =>
    { exit := 2, stderr := "relang: error: cannot load " ++ path ++ ": " ++ message ++ "\n" }

/-- The dialect that the arguments choose. An alphabet that is given as an argument replaces the
one of the configuration. -/
def chooseDialect (contents : String → Except FileError String) (a : Arguments) :
    Except SetupError Dialect := do
  let dialect ← match a.config with
    | none => pure {}
    | some .nothing => throw .noValue
    | some (.text path) => (loadDialect contents path).mapError (.badConfig path)
  match a.alphabet with
  | none => return dialect
  | some given => return dialect.withAlphabet (some given.toWord)

/-- A run under a dialect that shows messages from a level on. A directory that is asked for but not
given is missed only when the files are to be written. -/
def runWith (d : Dialect) (level : Level) (a : Arguments) : Outcome :=
  match d.parse a.pattern with
  | .error e => { exit := 2, stderr := faultText a.pattern e }
  | .ok r =>
    let stages := Stages.ofRegex d r
    let files := match a.dotDirectory with
      | some (.text directory) => stages.files directory
      | _ => []
    { exit := if a.dotDirectory = some .nothing then 1 else 0
      stdout := report stages.minimal a.words
      stderr := logText level (stages.log a.pattern r ++ files.map DotFile.entry)
      files }

/-- A run for what a command line asks for. -/
def runFor (contents : String → Except FileError String) (a : Arguments) :
    Except SetupError Outcome := do
  let some level := a.level | throw .noValue
  let d ← chooseDialect contents a
  return runWith d level a

def run (contents : String → Except FileError String) (texts : List String) : Outcome :=
  match Arguments.read texts with
  | .error .help => { exit := 0 }
  | .error _ => { exit := 2 }
  | .ok a =>
    match runFor contents a with
    | .error e => e.outcome
    | .ok outcome => outcome

end RegularLanguage.Command
