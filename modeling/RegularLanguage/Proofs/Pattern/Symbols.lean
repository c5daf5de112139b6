import RegularLanguage.Graph.OfAutomaton
import RegularLanguage.Proofs.DFA.ToNFA
import RegularLanguage.Proofs.Pattern.Automaton
import RegularLanguage.Proofs.Pattern.RoundTrip
/-!
# The symbols on a pattern's automata

The literals of a pattern are single characters that its dialect allows. They are the symbols on the
moves of its automaton (`Regex.mem_usedSymbols_toNFA`), and the steps to the smallest automaton
bring in no others.
-/

namespace RegularLanguage

variable {a : Symbol} {r : Regex} {cs : List Char}

/-! ## Literals -/

/-- The literals are single characters that the dialect allows. -/
def Dialect.AllowsLiterals (d : Dialect) (r : Regex) : Prop :=
  ∀ a ∈ r.literals, (∃ c, a = String.singleton c) ∧ d.allows a = true

namespace Dialect

variable {d : Dialect} {c : Char} {s : Regex}

theorem allowsLiterals_empty : d.AllowsLiterals .empty := fun _ h => by cases h

theorem allowsLiterals_epsilon : d.AllowsLiterals .epsilon := fun _ h => by cases h

theorem allowsLiterals_literal (h : d.allows (String.singleton c) = true) :
    d.AllowsLiterals (.literal (String.singleton c)) := by
  intro a ha
  obtain rfl := List.mem_singleton.1 ha
  exact ⟨⟨c, rfl⟩, h⟩

theorem AllowsLiterals.concat (hr : d.AllowsLiterals r) (hs : d.AllowsLiterals s) :
    d.AllowsLiterals (.concat r s) :=
  List.forall_mem_append.2 ⟨hr, hs⟩

theorem AllowsLiterals.union (hr : d.AllowsLiterals r) (hs : d.AllowsLiterals s) :
    d.AllowsLiterals (.union r s) :=
  List.forall_mem_append.2 ⟨hr, hs⟩

mutual

theorem IsAtom.allowsLiterals : ∀ {cs : List Char} {r : Regex}, IsAtom d cs r → d.AllowsLiterals r
  | _, _, .symbol _ allowed => allowsLiterals_literal allowed
  | _, _, .escaped allowed => allowsLiterals_literal allowed
  | _, _, .epsilon => allowsLiterals_epsilon
  | _, _, .empty => allowsLiterals_empty
  | _, _, .group body => body.allowsLiterals

theorem IsFactor.allowsLiterals :
    ∀ {cs : List Char} {r : Regex}, IsFactor d cs r → d.AllowsLiterals r
  | _, _, .atom h => h.allowsLiterals
  | _, _, .star h => h.allowsLiterals

theorem IsTerm.allowsLiterals : ∀ {cs : List Char} {r : Regex}, IsTerm d cs r → d.AllowsLiterals r
  | _, _, .factor h => h.allowsLiterals
  | _, _, .concat left right => left.allowsLiterals.concat right.allowsLiterals

theorem IsUnion.allowsLiterals :
    ∀ {cs : List Char} {r : Regex}, IsUnion d cs r → d.AllowsLiterals r
  | _, _, .term h => h.allowsLiterals
  | _, _, .union left right => left.allowsLiterals.union right.allowsLiterals

theorem IsBody.allowsLiterals : ∀ {cs : List Char} {r : Regex}, IsBody d cs r → d.AllowsLiterals r
  | _, _, .nothing => allowsLiterals_epsilon
  | _, _, .union h => h.allowsLiterals

end

theorem allowsLiterals_of_parse {p : String} (h : d.parse p = .ok r) : d.AllowsLiterals r :=
  (denotes_of_parse h).allowsLiterals

end Dialect

/-! ## Moves -/

namespace NFA

variable {n : NFA} {p q : State}

@[simp]
theorem mem_usedSymbols : a ∈ n.usedSymbols ↔ ∃ p q, ⟨p, some a, q⟩ ∈ n.edges := by
  rw [usedSymbols, Ascending.mem_ofList, List.mem_filterMap]
  constructor
  · rintro ⟨⟨p, l, q⟩, he, rfl⟩
    exact ⟨p, q, he⟩
  · rintro ⟨p, q, he⟩
    exact ⟨_, he, rfl⟩

/-- Some move has been added under the symbol. -/
def Builder.Uses (b : Builder) (a : Symbol) : Prop := ∃ p q, ⟨p, some a, q⟩ ∈ b.edges

variable {b : Builder}

theorem Builder.uses_addState : b.addState.2.Uses a ↔ b.Uses a := Iff.rfl

theorem Builder.uses_addSilent : (b.addSilent p q).Uses a ↔ b.Uses a := by
  simp [Uses, addSilent, addEdge]

theorem Builder.uses_addEdge {x : Symbol} :
    (b.addEdge p (some x) q).Uses a ↔ a = x ∨ b.Uses a := by
  simp [Uses, addEdge, exists_or]

/-- A set that is kept as a state is not empty, so its symbol is on a move to one of its members. -/
theorem mem_usedSymbols_of_determinize {alphabet : List Symbol} (h : n.IsValid)
    (ha : a ∈ (n.determinize alphabet false).toNFA.usedSymbols) : a ∈ n.usedSymbols := by
  simp only [mem_usedSymbols, DFA.mem_toNFA_edges, Option.some.injEq, exists_eq_left',
    mem_determinize_edges] at ha ⊢
  obtain ⟨s, t, i, j, harc, -⟩ := ha
  obtain ⟨qs, rs, -, -, hm⟩ := (subsets_isBreadthFirst h alphabet false).arc i a j harc
  obtain ⟨-, rfl, hkeep⟩ := mem_subsetMoves.1 hm
  obtain ⟨q, hq⟩ := List.exists_mem_of_ne_nil _ fun hempty => Bool.false_ne_true (hkeep hempty)
  obtain ⟨p, -, r, he, -⟩ := mem_step.1 hq
  exact ⟨p, r, he⟩

end NFA

theorem DFA.mem_usedSymbols_of_minimize {d : DFA} (h : d.IsValid)
    (ha : a ∈ d.minimize.toNFA.usedSymbols) : a ∈ d.toNFA.usedSymbols := by
  obtain ⟨p, hp, -, -, hmin⟩ := exists_minimize_eq h
  rw [hmin] at ha
  simp only [NFA.mem_usedSymbols, mem_toNFA_edges, Option.some.injEq, exists_eq_left',
    mem_quotient_edges (trim_isValid h) hp, Option.bind_eq_some_iff,
    trim_delta_eq_some_iff h] at ha ⊢
  obtain ⟨s, t, i, -, -, r, ⟨hr, -⟩, -⟩ := ha
  exact ⟨_, r, h.delta_eq_some_iff.1 hr⟩

namespace Regex

variable (alphabet : List Symbol)

/-- The fragment of an expression adds moves under the symbols of its literals, and no others. -/
theorem fragment_uses_iff (r : Regex) (b : NFA.Builder) :
    (r.fragment b).2.Uses a ↔ a ∈ r.literals ∨ b.Uses a := by
  induction r generalizing b with
  | empty =>
    simp only [fragment, Fragment.ofLeaf, NFA.Builder.uses_addState, literals, List.not_mem_nil,
      false_or]
  | epsilon =>
    simp only [fragment, Fragment.ofLeaf]
    rw [← NFA.Builder.addSilent, NFA.Builder.uses_addSilent]
    simp only [NFA.Builder.uses_addState, literals, List.not_mem_nil, false_or]
  | literal x =>
    simp only [fragment, Fragment.ofLeaf, NFA.Builder.uses_addEdge, NFA.Builder.uses_addState,
      literals, List.mem_singleton]
  | concat r s ihr ihs =>
    simp only [fragment, Fragment.concat, NFA.Builder.uses_addSilent, ihs, ihr, literals,
      List.mem_append]
    rw [← or_assoc, or_comm (a := a ∈ s.literals)]
  | union r s ihr ihs =>
    simp only [fragment, Fragment.union, NFA.Builder.uses_addSilent, NFA.Builder.uses_addState, ihs,
      ihr, literals, List.mem_append]
    rw [← or_assoc, or_comm (a := a ∈ s.literals)]
  | star r ih =>
    simp only [fragment, Fragment.star, NFA.Builder.uses_addSilent, NFA.Builder.uses_addState, ih,
      literals]

/-- The symbols on an expression's automaton are those of its literals. -/
theorem mem_usedSymbols_toNFA : a ∈ (r.toNFA alphabet).usedSymbols ↔ a ∈ r.literals := by
  have huses : a ∈ (r.toNFA alphabet).usedSymbols ↔ (r.fragment {}).2.Uses a := by
    simp [toNFA_eq, NFA.ofParts, Automaton.ofParts, NFA.Builder.Uses]
  rw [huses, fragment_uses_iff]
  refine or_iff_left ?_
  rintro ⟨p, q, he⟩
  cases he

variable (alphabet' : List Symbol)

theorem mem_literals_of_determinize
    (ha : a ∈ ((r.toNFA alphabet).determinize alphabet' false).toNFA.usedSymbols) :
    a ∈ r.literals :=
  (mem_usedSymbols_toNFA alphabet).1
    (NFA.mem_usedSymbols_of_determinize (r.toNFA_isValid alphabet) ha)

theorem mem_literals_of_minimize
    (ha : a ∈ ((r.toNFA alphabet).determinize alphabet' false).minimize.toNFA.usedSymbols) :
    a ∈ r.literals := by
  have hvalid := r.toNFA_determinize_isValid alphabet alphabet' false
  exact mem_literals_of_determinize alphabet alphabet' (DFA.mem_usedSymbols_of_minimize hvalid ha)

end Regex

end RegularLanguage
