import Mathlib.Logic.ExistsUnique
import RegularLanguage.Grammar.RightLinear
import RegularLanguage.Proofs.DFA.Run
import RegularLanguage.Proofs.Text.Integer
/-!
# Derivations follow runs

A state's variable derives the words other than the empty one that the state accepts, each by the
productions of the edges that the run passes (`existsUnique_derives_state`). The start variable also
derives the empty word if the start is final. So each accepted word has one derivation, and no other
word has any (`toGrammar_derives_once`).

The grammar is there if no useful state has more digits than may be written, and only then
(`writeGrammar_derives_once`).
-/

namespace RegularLanguage

open Std

/-! ## Derivations from the first item on -/

namespace Grammar

variable {g : Grammar} {a : Symbol} {v : Variable} {form : List Item} {used : List Production}
  {w : Word}

theorem derives_nil_iff : g.Derives [] used w ↔ used = [] ∧ w = [] := by
  constructor
  · intro h
    cases h
    exact ⟨rfl, rfl⟩
  · rintro ⟨rfl, rfl⟩
    exact .nil

theorem derives_terminal_iff :
    g.Derives (.terminal a :: form) used w ↔ ∃ u, w = a :: u ∧ g.Derives form used u := by
  constructor
  · intro h
    cases h with
    | terminal _ h => exact ⟨_, rfl, h⟩
  · rintro ⟨u, rfl, h⟩
    exact .terminal a h

theorem derives_nonterminal_iff : g.Derives (.nonterminal v :: form) used w ↔
    ∃ body rest, ⟨v, body⟩ ∈ g.productions ∧ used = ⟨v, body⟩ :: rest ∧
      g.Derives (body ++ form) rest w := by
  constructor
  · intro h
    cases h with
    | produce hp h => exact ⟨_, _, hp, rfl, h⟩
  · rintro ⟨body, rest, hp, rfl, h⟩
    exact .produce hp h

/-- A list of productions is the only one if it begins in one way and its rest is the only one, or
if it ends at once where nothing is left to derive. -/
theorem existsUnique_cons_or {p p' : Production} {rests : List Production → Prop} {stops : Prop}
    (hnil : w = [] → stops ∧ ∀ rest, ¬ rests rest) (hcons : w ≠ [] → ∃! rest, rests rest) :
    ∃! used, (∃ rest, used = p :: rest ∧ rests rest) ∨ stops ∧ used = [p'] ∧ w = [] := by
  by_cases hw : w = []
  · obtain ⟨hstops, hnone⟩ := hnil hw
    refine ⟨[p'], .inr ⟨hstops, rfl, hw⟩, ?_⟩
    rintro used (⟨rest, -, hrest⟩ | ⟨-, hused, -⟩)
    · exact absurd hrest (hnone rest)
    · exact hused
  · obtain ⟨rest, hrest, hunique⟩ := hcons hw
    refine ⟨p :: rest, .inl ⟨rest, rfl, hrest⟩, ?_⟩
    rintro used (⟨rest', rfl, hrest'⟩ | ⟨-, -, hnil⟩)
    · rw [hunique rest' hrest']
    · exact absurd hnil hw

end Grammar

namespace DFA

open Grammar Text

variable {d : DFA} {q r : State} {a : Symbol} {v w : Word} {body : List Item}
  {used : List Production}

/-! ## The productions of an automaton -/

/-- The state lies on a path from the start to a final state. -/
def IsUseful (d : DFA) (q : State) : Prop :=
  (∃ u, d.runFrom d.start u = some q) ∧ ∃ w, d.acceptsFrom q w = true

theorem mem_useful (h : d.IsValid) : q ∈ d.useful ↔ d.IsUseful q := by
  classical
  rw [useful, List.mem_filter, mem_reachable h, TreeSet.contains_ofList, List.contains_iff_mem,
    mem_productive h]
  exact Iff.rfl

section

variable (h : d.IsValid)

include h

/-- The productions are those of the start variable and those of the useful edges. -/
theorem mem_productions {p : Production} : p ∈ d.toGrammar.productions ↔
    d.IsUseful d.start ∧ p = ⟨.start, [.nonterminal (.state d.start)]⟩ ∨
      d.start ∈ d.final ∧ p = ⟨.start, []⟩ ∨
      ∃ q a r, d.delta q a = some r ∧ d.IsUseful q ∧ d.IsUseful r ∧
        (p = ⟨.state q, [.terminal a, .nonterminal (.state r)]⟩ ∨
          r ∈ d.final ∧ p = ⟨.state q, [.terminal a]⟩) := by
  classical
  simp [toGrammar, edgeProductions, TreeSet.contains_ofList, mem_useful h, h.delta_eq_some_iff,
    Edge.exists_iff, and_assoc]

/-- The start variable goes on at the start, or it stops there. -/
theorem derives_start_iff : d.toGrammar.Derives [.nonterminal .start] used w ↔
    (∃ rest, used = ⟨.start, [.nonterminal (.state d.start)]⟩ :: rest ∧
      d.IsUseful d.start ∧ d.toGrammar.Derives [.nonterminal (.state d.start)] rest w) ∨
    d.start ∈ d.final ∧ used = [⟨.start, []⟩] ∧ w = [] := by
  rw [derives_nonterminal_iff]
  constructor
  · rintro ⟨body, rest, hp, rfl, hrest⟩
    rcases (mem_productions h).1 hp with ⟨huseful, hp⟩ | ⟨hfinal, hp⟩ | ⟨q, a, r, -, -, -, hp⟩
    · cases hp
      exact .inl ⟨rest, rfl, huseful, hrest⟩
    · cases hp
      obtain ⟨rfl, rfl⟩ := derives_nil_iff.1 hrest
      exact .inr ⟨hfinal, rfl, rfl⟩
    · rcases hp with hp | ⟨-, hp⟩ <;> cases hp
  · rintro (⟨rest, rfl, huseful, hrest⟩ | ⟨hfinal, rfl, rfl⟩)
    · exact ⟨_, rest, (mem_productions h).2 (.inl ⟨huseful, rfl⟩), rfl, hrest⟩
    · exact ⟨[], [], (mem_productions h).2 (.inr (.inl ⟨hfinal, rfl⟩)), rfl, .nil⟩

/-- The variable of a state follows a useful edge, and goes on or ends at the target. -/
theorem derives_state_iff : d.toGrammar.Derives [.nonterminal (.state q)] used w ↔
    ∃ a v r, w = a :: v ∧ d.delta q a = some r ∧ d.IsUseful q ∧ d.IsUseful r ∧
      ((∃ rest, used = ⟨.state q, [.terminal a, .nonterminal (.state r)]⟩ :: rest ∧
        d.toGrammar.Derives [.nonterminal (.state r)] rest v) ∨
      r ∈ d.final ∧ used = [⟨.state q, [.terminal a]⟩] ∧ v = []) := by
  rw [derives_nonterminal_iff]
  constructor
  · rintro ⟨body, rest, hp, rfl, hrest⟩
    rcases (mem_productions h).1 hp with ⟨-, hp⟩ | ⟨-, hp⟩ | ⟨q', a, r, hr, huseful, hgoal, hp⟩
    · cases hp
    · cases hp
    · rcases hp with hp | ⟨hfinal, hp⟩ <;> cases hp <;>
        obtain ⟨v, rfl, hv⟩ := derives_terminal_iff.1 hrest
      · exact ⟨a, v, r, rfl, hr, huseful, hgoal, .inl ⟨rest, rfl, hv⟩⟩
      · obtain ⟨rfl, rfl⟩ := derives_nil_iff.1 hv
        exact ⟨a, [], r, rfl, hr, huseful, hgoal, .inr ⟨hfinal, rfl, rfl⟩⟩
  · rintro ⟨a, v, r, rfl, hr, huseful, hgoal, ⟨rest, rfl, hrest⟩ | ⟨hfinal, rfl, rfl⟩⟩
    · exact ⟨_, rest, (mem_productions h).2 (.inr (.inr ⟨q, a, r, hr, huseful, hgoal, .inl rfl⟩)),
        rfl, .terminal a hrest⟩
    · exact ⟨_, [], (mem_productions h).2
        (.inr (.inr ⟨q, a, r, hr, huseful, hgoal, .inr ⟨hfinal, rfl⟩⟩)), rfl, .terminal a .nil⟩

/-! ## Derivations and runs -/

/-- Every derivation from a state begins with the edge that the first symbol leads along. -/
theorem derives_state_cons_iff (hr : d.delta q a = some r) (huseful : d.IsUseful q)
    (hgoal : d.IsUseful r) : d.toGrammar.Derives [.nonterminal (.state q)] used (a :: w) ↔
      (∃ rest, used = ⟨.state q, [.terminal a, .nonterminal (.state r)]⟩ :: rest ∧
        d.toGrammar.Derives [.nonterminal (.state r)] rest w) ∨
      r ∈ d.final ∧ used = [⟨.state q, [.terminal a]⟩] ∧ w = [] := by
  rw [derives_state_iff h]
  constructor
  · rintro ⟨a', v, r', hw, hr', -, -, hrest⟩
    cases hw
    cases hr.symm.trans hr'
    exact hrest
  · exact fun hrest => ⟨a, w, r, rfl, hr, huseful, hgoal, hrest⟩

theorem not_derives_state_nil : ¬ d.toGrammar.Derives [.nonterminal (.state q)] used [] := by
  intro hd
  obtain ⟨a, v, r, hw, -⟩ := (derives_state_iff h).1 hd
  cases hw

/-- A state's variable derives only words that the state accepts. -/
theorem acceptsFrom_of_derives_state
    (hd : d.toGrammar.Derives [.nonterminal (.state q)] used w) : d.acceptsFrom q w = true := by
  induction w generalizing q used with
  | nil => exact absurd hd (not_derives_state_nil h)
  | cons a w ih =>
    obtain ⟨a', v, r, hw, hr, -, -, hrest⟩ := (derives_state_iff h).1 hd
    cases hw
    rw [acceptsFrom_cons, hr, Option.any_some]
    rcases hrest with ⟨rest, -, hrest⟩ | ⟨hfinal, -, rfl⟩
    · exact ih hrest
    · exact acceptsFrom_nil_iff.2 hfinal

/-- A useful state's variable derives each word that the state accepts in one way, except for the
empty one. -/
theorem existsUnique_derives_state (hq : ∃ u, d.runFrom d.start u = some q) (hne : w ≠ [])
    (hw : d.acceptsFrom q w = true) :
    ∃! used, d.toGrammar.Derives [.nonterminal (.state q)] used w := by
  induction w generalizing q with
  | nil => exact absurd rfl hne
  | cons a w ih =>
    have huseful : d.IsUseful q := ⟨hq, a :: w, hw⟩
    obtain ⟨r, hr, hw⟩ := (Option.any_eq_true _ _).1 (acceptsFrom_cons.symm.trans hw)
    have hreach : ∃ u, d.runFrom d.start u = some r := by
      obtain ⟨u, hu⟩ := hq
      exact ⟨u ++ [a], runFrom_concat_eq_some_iff.2 ⟨q, hu, hr⟩⟩
    have hgoal : d.IsUseful r := ⟨hreach, w, hw⟩
    simp only [derives_state_cons_iff h hr huseful hgoal]
    refine existsUnique_cons_or (fun hnil => ?_) fun hne => ih hreach hne hw
    subst hnil
    exact ⟨acceptsFrom_nil_iff.1 hw, fun rest => not_derives_state_nil h⟩

/-- The start variable derives the words that the automaton accepts. -/
theorem exists_derives_start_iff :
    (∃ used, d.toGrammar.Derives [.nonterminal .start] used w) ↔ d.accepts w = true := by
  simp only [derives_start_iff h]
  constructor
  · rintro ⟨used, ⟨rest, -, -, hrest⟩ | ⟨hfinal, -, rfl⟩⟩
    · exact acceptsFrom_of_derives_state h hrest
    · exact acceptsFrom_nil_iff.2 hfinal
  · intro hw
    have huseful : d.IsUseful d.start := ⟨⟨[], rfl⟩, w, hw⟩
    by_cases hnil : w = []
    · subst hnil
      exact ⟨_, .inr ⟨acceptsFrom_nil_iff.1 hw, rfl, rfl⟩⟩
    · obtain ⟨rest, hrest, -⟩ := existsUnique_derives_state h huseful.1 hnil hw
      exact ⟨_, .inl ⟨rest, rfl, huseful, hrest⟩⟩

end

/-- The start variable has exactly one derivation of each word that the automaton accepts, and none
of any other word. -/
theorem toGrammar_derives_once (d : DFA) (h : d.IsValid) (w : Word) :
    (d.accepts w = true → ∃! used, d.toGrammar.Derives [.nonterminal .start] used w) ∧
      (d.accepts w = false → ∀ used, ¬ d.toGrammar.Derives [.nonterminal .start] used w) := by
  simp only [derives_start_iff h]
  constructor
  · intro hw
    have huseful : d.IsUseful d.start := ⟨⟨[], rfl⟩, w, hw⟩
    refine existsUnique_cons_or (fun hnil => ?_) fun hne => ?_
    · subst hnil
      exact ⟨acceptsFrom_nil_iff.1 hw, fun rest hrest => not_derives_state_nil h hrest.2⟩
    · simp only [huseful, true_and]
      exact existsUnique_derives_state h huseful.1 hne hw
  · rintro hw used (⟨rest, -, -, hrest⟩ | ⟨hfinal, -, rfl⟩)
    · exact absurd (acceptsFrom_of_derives_state h hrest) (Bool.eq_false_iff.1 hw)
    · exact absurd (acceptsFrom_nil_iff.2 hfinal) (Bool.eq_false_iff.1 hw)

/-! ## Names that can be written -/

theorem writeGrammar_of_short (h : d.IsValid)
    (hshort : ∀ q, d.IsUseful q → digitCount q ≤ digitLimit) :
    d.writeGrammar = .ok d.toGrammar :=
  writing_of_forall_le _ fun q hq => hshort q ((mem_useful h).1 hq)

theorem writeGrammar_of_long (h : d.IsValid) (hq : d.IsUseful q)
    (hlong : digitLimit < digitCount q) : d.writeGrammar = .error .tooManyDigits :=
  writing_of_exists_lt _ ⟨q, (mem_useful h).2 hq, hlong⟩

/-- If no useful state has too many digits, there is a grammar, in which the start variable has
exactly one derivation of each word that the automaton accepts, and none of any other word. If some
useful state has too many, there is none. -/
theorem writeGrammar_derives_once (d : DFA) (h : d.IsValid) :
    ((∀ q, d.IsUseful q → digitCount q ≤ digitLimit) →
      ∃ g, d.writeGrammar = .ok g ∧ ∀ w,
        (d.accepts w = true → ∃! used, g.Derives [.nonterminal .start] used w) ∧
          (d.accepts w = false → ∀ used, ¬ g.Derives [.nonterminal .start] used w)) ∧
    ((∃ q, d.IsUseful q ∧ digitLimit < digitCount q) →
      d.writeGrammar = .error .tooManyDigits) := by
  refine ⟨fun hshort => ⟨_, writeGrammar_of_short h hshort, toGrammar_derives_once d h⟩, ?_⟩
  rintro ⟨q, hq, hlong⟩
  exact writeGrammar_of_long h hq hlong

/-- An automaton with a final state that is left again, a state that accepts nothing, and a state
that is not reached. -/
def relay : DFA :=
  ofParts [0, 1, 2, 9] 0 [0, 1] [⟨0, "a", 1⟩, ⟨1, "a", 0⟩, ⟨1, "b", 2⟩, ⟨9, "a", 1⟩] [] []

theorem relay_isValid : relay.IsValid :=
  ofParts_isValid (by decide) (by decide) (by decide) (by decide)

theorem writeGrammar_derives_once_relay : relay.IsValid ∧
    (∀ q, relay.IsUseful q → digitCount q ≤ digitLimit) ∧
    relay.accepts ["a", "a"] = true ∧ relay.accepts ["a", "b"] = false ∧
    ∃ g, relay.writeGrammar = .ok g ∧
      (∃! used, g.Derives [.nonterminal .start] used ["a", "a"]) ∧
      ∀ used, ¬ g.Derives [.nonterminal .start] used ["a", "b"] := by
  have hshort : ∀ q, relay.IsUseful q → digitCount q ≤ digitLimit := by
    have hall : ∀ q ∈ relay.useful, digitCount q ≤ digitLimit := by decide +kernel
    exact fun q hq => hall q ((mem_useful relay_isValid).2 hq)
  have haccepts : relay.accepts ["a", "a"] = true := by decide
  have hrejects : relay.accepts ["a", "b"] = false := by decide
  obtain ⟨g, hg, hwords⟩ := (writeGrammar_derives_once relay relay_isValid).1 hshort
  exact ⟨relay_isValid, hshort, haccepts, hrejects, g, hg, (hwords _).1 haccepts,
    (hwords _).2 hrejects⟩

/-- A state of one digit too many accepts the empty word, and there is no grammar to derive it. -/
theorem not_writeGrammar_long :
    let q : State := 10 ^ digitLimit
    let d : DFA := ofParts [q] q [q] [] [] []
    d.IsValid ∧ d.accepts [] = true ∧ d.writeGrammar = .error .tooManyDigits ∧
      ¬ ∃ g, d.writeGrammar = .ok g := by
  intro q d
  have hvalid : d.IsValid := ofParts_isValid (by simp) (by simp) (by simp) (by simp)
  have haccepts : d.accepts [] = true :=
    acceptsFrom_nil_iff.2 (Ascending.mem_ofList.2 (List.mem_singleton_self q))
  have hlong : digitLimit < digitCount q := by
    rw [digitCount_pow (by decide)]
    exact Nat.lt_succ_self digitLimit
  have herror : d.writeGrammar = .error .tooManyDigits :=
    writeGrammar_of_long hvalid ⟨⟨[], rfl⟩, [], haccepts⟩ hlong
  refine ⟨hvalid, haccepts, herror, ?_⟩
  rintro ⟨g, hg⟩
  cases herror.symm.trans hg

end DFA

end RegularLanguage
