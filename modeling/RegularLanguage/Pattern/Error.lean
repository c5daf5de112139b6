import RegularLanguage.Text.Quoted
import RegularLanguage.Regex.Basic
/-!
# Faults of patterns

What may be wrong with a pattern, each with its place. Places are counted in characters from nought.

| here | `relang` |
| --- | --- |
| `PatternError` | `RegexSyntaxError`; `notInAlphabet` is `AlphabetError` |
| `position`, `reason` | `position`, `message` |
| `message` | what is printed of the error |
-/

namespace RegularLanguage

/-- A fault of a pattern and its place. -/
inductive PatternError where
  | missingStarOperand (position : Nat)
  | missingLeftOperand (position : Nat)
  | missingRightOperand (position : Nat)
  | danglingEscape (position : Nat)
  | unmatchedClosing (position : Nat)
  | unmatchedOpening (position : Nat)
  | notInAlphabet (symbol : Symbol) (position : Nat)
deriving DecidableEq

namespace PatternError

def position : PatternError → Nat
  | missingStarOperand p | missingLeftOperand p | missingRightOperand p | danglingEscape p
  | unmatchedClosing p | unmatchedOpening p | notInAlphabet _ p => p

/-- What is wrong, without the place. -/
def reason : PatternError → String
  | missingStarOperand _ => "missing operand of '*'"
  | missingLeftOperand _ => "missing left operand of '|'"
  | missingRightOperand _ => "missing right operand of '|'"
  | danglingEscape _ => "dangling escape"
  | unmatchedClosing _ => "unmatched ')'"
  | unmatchedOpening _ => "unmatched '('"
  | notInAlphabet a _ => "symbol " ++ Text.quoted a ++ " is not in the alphabet"

def message (e : PatternError) : String := e.reason ++ " at position " ++ toString e.position

/-- The same fault over renamed symbols. -/
def rename (f : Symbol → Symbol) : PatternError → PatternError
  | notInAlphabet a p => notInAlphabet (f a) p
  | e => e

end PatternError

end RegularLanguage
