import RegularLanguage.Pattern.Error
/-!
# Groups that are being read

A group is a part of a pattern between parentheses, or the whole pattern. What has been read of it
is a union of alternatives, then the factors of the alternative in progress. The last factor is kept
apart because a star applies to it alone.

| here | `relang` |
| --- | --- |
| `OpenGroup` | `_Group`; `alternatives` is `union` with `bar`, `factors` is `concat` with `last` |
| `term` | `_term` |
| `push`, `star`, `bar`, `close` | `push`, `star`, `alternate`, `close` |
-/

namespace RegularLanguage

/-- A group of which a part has been read. -/
structure OpenGroup where
  /-- The alternatives up to the last bar, and the place of that bar. -/
  alternatives : Option (Regex × Nat) := none
  /-- The factors since then: all but the last one, if there are more, and the last one. -/
  factors : Option (Option Regex × Regex) := none

namespace OpenGroup

/-- The factors since the last bar as one expression. -/
def term (g : OpenGroup) : Option Regex :=
  g.factors.map fun
    | (none, last) => last
    | (some before, last) => .concat before last

def push (r : Regex) (g : OpenGroup) : OpenGroup := { g with factors := some (g.term, r) }

/-- A star at `position`, applied to the last factor. -/
def star (position : Nat) (g : OpenGroup) : Except PatternError OpenGroup :=
  match g.factors with
  | some (before, last) => .ok { g with factors := some (before, .star last) }
  | none => .error (.missingStarOperand position)

def bar (position : Nat) (g : OpenGroup) : Except PatternError OpenGroup :=
  match g.term, g.alternatives with
  | some t, none => .ok { alternatives := some (t, position) }
  | some t, some (u, _) => .ok { alternatives := some (.union u t, position) }
  | none, none => .error (.missingLeftOperand position)
  | none, some (_, last) => .error (.missingRightOperand last)

/-- The expression of the group when its end has come. -/
def close (g : OpenGroup) : Except PatternError Regex :=
  match g.term, g.alternatives with
  | some t, none => .ok t
  | some t, some (u, _) => .ok (.union u t)
  | none, none => .ok .epsilon
  | none, some (_, last) => .error (.missingRightOperand last)

end OpenGroup

end RegularLanguage
