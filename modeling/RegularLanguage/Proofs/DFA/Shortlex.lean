import Mathlib.Data.List.Shortlex
import RegularLanguage.Proofs.DFA.Run
/-!
# States in the order of their words

Words are ordered by length, then by their symbols. In an automaton whose states are in the order of
the first words that lead to them (`IsShortlex`), the words alone tell which state is which number
(`IsShortlex.lt_iff_before`).
-/

namespace RegularLanguage

open Std

/-- A word comes before another one: it is shorter, or as long and smaller at the first place where
they differ. -/
def Word.Before (u v : Word) : Prop := List.Shortlex (fun a b => compare a b = .lt) u v

namespace Word

variable {u v : Word} {a b : Symbol}

theorem Before.asymm (h : u.Before v) : ¬ v.Before u := by
  have : Std.Asymm fun a b : Symbol => compare a b = .lt := ⟨fun a b hab hba => by
    rw [OrientedCmp.gt_of_lt hab] at hba
    cases hba⟩
  exact List.Shortlex.asymm.asymm u v h

theorem nil_before_of_ne (h : v ≠ []) : Before [] v :=
  (List.shortlex_nil_or_eq_nil v).resolve_right h

/-- Whatever symbols are put after words that differ, the words decide. -/
theorem Before.concat (h : u.Before v) (a b : Symbol) : Before (u ++ [a]) (v ++ [b]) := by
  rcases List.shortlex_def.1 h with hlen | ⟨hlen, hlex⟩
  · exact .of_length_lt (by simpa using hlen)
  · refine .of_lex (by simpa using hlen) ?_
    clear h
    induction hlex with
    | nil => cases hlen
    | cons _ ih => exact .cons (ih (by simpa using hlen))
    | rel hab => exact .rel hab

theorem before_concat (h : compare a b = .lt) (u : Word) : Before (u ++ [a]) (u ++ [b]) :=
  .append_left ((List.shortlex_singleton_iff a b).2 h) u

end Word

namespace DFA

variable {d : DFA} {q r : State} {u v : Word}

/-- The word leads to the state, and comes before all other words that lead to it or to a state of
a greater number. -/
def IsFirstWord (d : DFA) (u : Word) (q : State) : Prop :=
  d.runFrom d.start u = some q ∧
    ∀ v r, d.runFrom d.start v = some r → q ≤ r → u = v ∨ u.Before v

theorem isFirstWord_nil : d.IsFirstWord [] d.start := by
  refine ⟨rfl, fun v r _ _ => ?_⟩
  by_cases hv : v = []
  · exact .inl hv.symm
  · exact .inr (Word.nil_before_of_ne hv)

/-- The states are in the order of the first words that lead to them. -/
def IsShortlex (d : DFA) : Prop := ∀ q ∈ d.states, ∃ u, d.IsFirstWord u q

/-! ## The order of states is that of words -/

/-- The word leads to the state, and comes before all other words that lead to it. -/
def IsLeastWord (d : DFA) (u : Word) (q : State) : Prop :=
  d.runFrom d.start u = some q ∧ ∀ v, d.runFrom d.start v = some q → u = v ∨ u.Before v

theorem IsFirstWord.isLeastWord (h : d.IsFirstWord u q) : d.IsLeastWord u q :=
  ⟨h.1, fun v hv => h.2 v q hv (Int.le_refl q)⟩

theorem IsLeastWord.unique (hu : d.IsLeastWord u q) (hv : d.IsLeastWord v q) : u = v := by
  rcases hu.2 v hv.1 with heq | hbefore
  · exact heq
  · rcases hv.2 u hu.1 with heq | hafter
    · exact heq.symm
    · exact absurd hafter hbefore.asymm

theorem IsShortlex.before_of_lt (hs : d.IsShortlex) (hq : q ∈ d.states)
    (hu : d.IsLeastWord u q) (hv : d.IsLeastWord v r) (hlt : q < r) : u.Before v := by
  obtain ⟨u', hu'⟩ := hs q hq
  obtain rfl := hu.unique hu'.isLeastWord
  rcases hu'.2 v r hv.1 (Int.le_of_lt hlt) with rfl | hbefore
  · exact absurd (Option.some.inj (hu.1.symm.trans hv.1)) (Int.ne_of_lt hlt)
  · exact hbefore

/-- Of two states, the one whose least word comes first has the smaller number. -/
theorem IsShortlex.lt_iff_before (hs : d.IsShortlex) (hq : q ∈ d.states) (hr : r ∈ d.states)
    (hu : d.IsLeastWord u q) (hv : d.IsLeastWord v r) : q < r ↔ u.Before v := by
  refine ⟨hs.before_of_lt hq hu hv, fun hbefore => ?_⟩
  rcases Int.lt_trichotomy q r with hlt | rfl | hgt
  · exact hlt
  · obtain rfl := hu.unique hv
    exact absurd hbefore hbefore.asymm
  · exact absurd (hs.before_of_lt hr hv hu hgt) hbefore.asymm

end DFA

end RegularLanguage
