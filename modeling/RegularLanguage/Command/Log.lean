/-!
# Log lines

Messages have a level, and those below a chosen level are left out.

The levels are the choices of `--log-level`.
-/

namespace RegularLanguage.Command

inductive Level where
  | debug
  | info
  | warning
  | error
  | critical
deriving DecidableEq

namespace Level

def name : Level → String
  | debug => "DEBUG"
  | info => "INFO"
  | warning => "WARNING"
  | error => "ERROR"
  | critical => "CRITICAL"

def rank : Level → Nat
  | debug => 0
  | info => 1
  | warning => 2
  | error => 3
  | critical => 4

def all : List Level := [debug, info, warning, error, critical]

/-- The level of a name, which has to be written just so. -/
def ofName? (name : String) : Option Level := all.find? fun level => level.name = name

end Level

structure Entry where
  level : Level
  text : String

/-- The lines of the messages that are not below the level. -/
def logText (least : Level) (entries : List Entry) : String :=
  let shown := entries.filter fun e => least.rank ≤ e.level.rank
  String.join (shown.map fun e => e.level.name ++ ": " ++ e.text ++ "\n")

end RegularLanguage.Command
