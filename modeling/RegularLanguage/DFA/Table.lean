import RegularLanguage.DFA.Basic
import RegularLanguage.Text.Integer
/-!
# Transition tables

One line per state after a line of symbols. An asterisk marks final states, a number sign the
start, and the letter N stands for a move that is missing.

| here | `relang` |
| --- | --- |
| `toTable` | the text of `to_table`, for numbers of any length |
| `writeTable` | `to_table` |
-/

namespace RegularLanguage.DFA

/-- The name of a state in tables and grammars. -/
def stateName (q : State) : String := "q" ++ toString q

def cellText : Option State → String
  | some q => stateName q
  | none => "N"

def rowText (d : DFA) (m : Moves) (q : State) : String :=
  let marks := (if d.final.contains q then "*" else "") ++ (if q = d.start then "#" else "")
  marks ++ stateName q ++ "\t" ++
    "\t".intercalate (d.alphabet.map fun a => cellText (m.next q a))

/-- The transition table. -/
def toTable (d : DFA) : String :=
  let m : Moves := d.outgoing
  let lines := ("\t" ++ "\t".intercalate d.alphabet) :: d.states.map (d.rowText m)
  "\n".intercalate lines ++ "\n"

/-- The transition table, if the names of all states can be written. -/
def writeTable (d : DFA) : Except Text.WriteError String := Text.writing d.states d.toTable

end RegularLanguage.DFA
