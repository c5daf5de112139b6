import RegularLanguage.Regex.Basic
/-!
# Post-order walks

A walk over an expression visits every node after its operands, the left operand before the right
one. The work that is left is kept in a list, so the depth of the expression does not matter.

| here | `relang` |
| --- | --- |
| `walk` | the loops of `compile_to_nfa` and `to_pattern` |
| `Task` | a node and `expanded` |
-/

namespace RegularLanguage.Regex

/-- A piece of work of a walk: an expression to enter, or one whose operands have been visited. -/
inductive Task where
  | enter (r : Regex)
  | leave (r : Regex)

/-- How much work is left: a node that is still to be entered counts twice. -/
def Task.weight : List Task → Nat
  | [] => 0
  | enter r :: rest => 2 * r.size + weight rest
  | leave _ :: rest => 1 + weight rest

/-- Does all tasks in turn; `visit` is applied to every node after its operands. A visit that fails
ends the walk. -/
def walk {σ : Type} (visit : Regex → σ → Option σ) : List Task → σ → Option σ
  | [], s => some s
  | .leave r :: rest, s =>
    match visit r s with
    | some s' => walk visit rest s'
    | none => none
  | .enter (concat r₁ r₂) :: rest, s =>
    walk visit (.enter r₁ :: .enter r₂ :: .leave (concat r₁ r₂) :: rest) s
  | .enter (union r₁ r₂) :: rest, s =>
    walk visit (.enter r₁ :: .enter r₂ :: .leave (union r₁ r₂) :: rest) s
  | .enter (star r) :: rest, s => walk visit (.enter r :: .leave (star r) :: rest) s
  | .enter empty :: rest, s => walk visit (.leave empty :: rest) s
  | .enter epsilon :: rest, s => walk visit (.leave epsilon :: rest) s
  | .enter (literal a) :: rest, s => walk visit (.leave (literal a) :: rest) s
termination_by tasks => Task.weight tasks
decreasing_by all_goals (simp only [Task.weight, size]; omega)

def postOrder {σ : Type} (visit : Regex → σ → Option σ) (r : Regex) (s : σ) : Option σ :=
  walk visit [.enter r] s

end RegularLanguage.Regex
