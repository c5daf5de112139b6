import RegularLanguage.Proofs.Automaton.Basic
/-!
# Faults inside an operation

Operations on automata take much for granted: that the parts they put together fit, that there is
something under every key they look up, that the numbers they take the least or the greatest of are
not nothing. In the modules of this directory each operation is followed step by step with all these
places guarded, a guard that fails ending the operation in a fault. The guarded operation is then
shown to give what the operation itself gives, for every valid automaton.

| here | `relang` |
| --- | --- |
| `Fault.misfit` | an assertion of the constructors of `NFA` and `DFA` |
| `Fault.missingKey` | a look-up in a dictionary or in a list |
| `Fault.emptyChoice` | `max` of `complete`, `min` of `minimize` |
| `Fault.unbalanced` | `pop` in `compile_to_nfa` and `_combine`, and the assertion after the loop |
| `Fault.unfinished` | a loop while something is left |
-/

namespace RegularLanguage

inductive Fault where
  /-- The parts of an automaton do not fit together. -/
  | misfit (e : AutomatonError)
  /-- There is nothing under a key. -/
  | missingKey
  /-- The least or the greatest of nothing is asked for. -/
  | emptyChoice
  /-- A node of an expression does not find the fragments of its operands. -/
  | unbalanced
  /-- The rounds that a repetition is known to need have not been enough. -/
  | unfinished
deriving DecidableEq

namespace Checked

/-- What is there, or a fault. -/
def require {α : Type} (fault : Fault) : Option α → Except Fault α
  | some a => .ok a
  | none => .error fault

/-- The automaton of parts that have to fit together. -/
def buildNFA (states : List State) (start : State) (final : List State) (edges : List (Edge Label))
    (alphabet : List Symbol) : Except Fault NFA :=
  (NFA.build states start final edges alphabet).mapError .misfit

def buildDFA (states : List State) (start : State) (final : List State) (edges : List (Edge Symbol))
    (alphabet : List Symbol) (subsets : List (State × List State)) : Except Fault DFA :=
  (DFA.build states start final (edges.map (Edge.relabel some)) alphabet subsets).mapError .misfit

variable {α β : Type} {fault : Fault}

@[simp]
theorem require_some (a : α) : require fault (some a) = .ok a := rfl

@[simp]
theorem ok_bind (a : α) (f : α → Except Fault β) : (Except.ok a >>= f) = f a := rfl

/-- A list is gone through without a fault if each member is. -/
theorem mapM_eq_ok {xs : List α} {f : α → Except Fault β} {g : α → β}
    (h : ∀ x ∈ xs, f x = .ok (g x)) : xs.mapM f = .ok (xs.map g) := by
  induction xs with
  | nil => rfl
  | cons x xs ih =>
    rw [List.mapM_cons, h x List.mem_cons_self, ih fun y hy => h y (List.mem_cons_of_mem x hy)]
    rfl

/-- What is kept along a list is handed on without a fault if each step hands it on. -/
theorem foldlM_eq_ok {σ : Type} {xs : List α} {f : σ → α → Except Fault σ} {g : σ → α → σ} {s : σ}
    (h : ∀ s, ∀ x ∈ xs, f s x = .ok (g s x)) : xs.foldlM f s = .ok (xs.foldl g s) := by
  induction xs generalizing s with
  | nil => rfl
  | cons x xs ih =>
    rw [List.foldlM_cons, h s x List.mem_cons_self]
    exact ih fun s y hy => h s y (List.mem_cons_of_mem x hy)

/-! ## Parts that fit together -/

section

variable {states : List State} {start : State} {final : List State} {alphabet : List Symbol}

theorem buildNFA_of_isValid {edges : List (Edge Label)}
    (h : (NFA.ofParts states start final edges alphabet).IsValid) :
    buildNFA states start final edges alphabet =
      .ok (NFA.ofParts states start final edges alphabet) := by
  rw [buildNFA, NFA.build_of_isValid h]
  rfl

theorem buildDFA_of_isValid {edges : List (Edge Symbol)} {subsets : List (State × List State)}
    (h : (DFA.ofParts states start final edges alphabet subsets).IsValid) :
    buildDFA states start final edges alphabet subsets =
      .ok (DFA.ofParts states start final edges alphabet subsets) := by
  rw [buildDFA, DFA.build_of_isValid h]
  rfl

end

end Checked

end RegularLanguage
