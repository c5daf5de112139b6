import RegularLanguage.Pattern.Automaton
import RegularLanguage.Proofs.DFA.Canonical
import RegularLanguage.Proofs.DFA.Subset
import RegularLanguage.Proofs.NFA.Thompson
/-!
# Automata of patterns and their languages

Each step from a pattern to its smallest automaton keeps the words. The smallest automaton is the
canonical one of its language, so it tells whether two patterns stand for the same words.
-/

namespace RegularLanguage

namespace Regex

variable (r : Regex) (alphabet alphabet' : List Symbol) (complete : Bool)

theorem toNFA_determinize_accepts (w : Word) :
    ((r.toNFA alphabet).determinize alphabet' complete).accepts w = true ↔ r.Matches w := by
  rw [NFA.determinize_accepts (r.toNFA_isValid alphabet)]
  exact r.toNFA_accepts_iff_matches alphabet w

theorem toNFA_determinize_isValid :
    ((r.toNFA alphabet).determinize alphabet' complete).IsValid :=
  NFA.determinize_isValid (r.toNFA_isValid alphabet) alphabet' complete

theorem toNFA_minimize_accepts (w : Word) :
    ((r.toNFA alphabet).determinize alphabet' complete).minimize.accepts w = true ↔
      r.Matches w := by
  rw [DFA.minimize_accepts (r.toNFA_determinize_isValid alphabet alphabet' complete)]
  exact r.toNFA_determinize_accepts alphabet alphabet' complete w

theorem toNFA_minimize_isCanonical :
    ((r.toNFA alphabet).determinize alphabet' complete).minimize.IsCanonical :=
  DFA.minimize_isCanonical (r.toNFA_determinize_isValid alphabet alphabet' complete)
    (NFA.determinize_isShortlex (r.toNFA_isValid alphabet))
    fun _ _ => NFA.determinize_delta_ne_start (r.toNFA_isValid alphabet)
      (r.toNFA_target_ne_start alphabet)

end Regex

namespace Dialect

theorem nfa_of_parse {c : Dialect} {p : String} {r : Regex} (h : c.parse p = .ok r) :
    c.nfa p = .ok (r.toNFA c.declared) := by
  rw [nfa, h]
  rfl

theorem dfa_of_parse {c : Dialect} {p : String} {r : Regex} (h : c.parse p = .ok r) :
    c.dfa p = .ok ((r.toNFA c.declared).determinize c.declared false) := by
  rw [dfa, nfa_of_parse h]
  rfl

/-- The smallest automaton that an expression read under the dialect leads to. -/
theorem minimalDFA_of_parse {c : Dialect} {p : String} {r : Regex} (h : c.parse p = .ok r) :
    c.minimalDFA p = .ok ((r.toNFA c.declared).determinize c.declared false).minimize := by
  rw [minimalDFA, dfa_of_parse h]
  rfl

/-- Patterns lead to the same smallest automaton exactly when their expressions denote the same
words, whatever the dialects are and whichever symbols they declare. -/
theorem minimalDFA_sameParts_iff (c₁ c₂ : Dialect) (p₁ p₂ : String) (r₁ r₂ : Regex)
    (h₁ : c₁.parse p₁ = .ok r₁) (h₂ : c₂.parse p₂ = .ok r₂) :
    ∃ d₁ d₂, c₁.minimalDFA p₁ = .ok d₁ ∧ c₂.minimalDFA p₂ = .ok d₂ ∧
      (d₁.SameParts d₂ ↔ ∀ w, r₁.Matches w ↔ r₂.Matches w) := by
  refine ⟨_, _, minimalDFA_of_parse h₁, minimalDFA_of_parse h₂, ?_⟩
  rw [(r₁.toNFA_minimize_isCanonical _ _ _).sameParts_iff (r₂.toNFA_minimize_isCanonical _ _ _)]
  refine forall_congr' fun w => ?_
  rw [Bool.eq_iff_iff, r₁.toNFA_minimize_accepts, r₂.toNFA_minimize_accepts]

theorem minimalDFA_sameParts_iff_star :
    ({} : Dialect).parse "a*" = .ok (.star (.literal "a")) ∧
      (({} : Dialect).withAlphabet (some ["a", "b"])).parse "()|aa*" =
        .ok (.union .epsilon (.concat (.literal "a") (.star (.literal "a")))) ∧
      ∃ d₁ d₂, ({} : Dialect).minimalDFA "a*" = .ok d₁ ∧
        (({} : Dialect).withAlphabet (some ["a", "b"])).minimalDFA "()|aa*" = .ok d₂ ∧
        (d₁.SameParts d₂ ↔ ∀ w, (Regex.star (.literal "a")).Matches w ↔
          (Regex.union .epsilon (.concat (.literal "a") (.star (.literal "a")))).Matches w) := by
  have h₁ : ({} : Dialect).parse "a*" = .ok (.star (.literal "a")) := by decide
  have h₂ : (({} : Dialect).withAlphabet (some ["a", "b"])).parse "()|aa*" =
      .ok (.union .epsilon (.concat (.literal "a") (.star (.literal "a")))) := by decide +kernel
  exact ⟨h₁, h₂, minimalDFA_sameParts_iff _ _ _ _ _ _ h₁ h₂⟩

end Dialect

end RegularLanguage
