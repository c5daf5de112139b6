import RegularLanguage.Proofs.DFA.Complete
import RegularLanguage.Proofs.DFA.ToNFA
import RegularLanguage.Proofs.Matrix.OfNFA
import RegularLanguage.Proofs.Matrix.Product
/-!
# Equivalence is decided

The product of two deterministic automata accepts a word on which both run, if the rule holds of
their verdicts (`product_toNFA_accepts_iff`). Completed automata run on the same words. So with the
rule "unlike" the product accepts the words on which the automata differ (`difference_accepts_iff`),
and it is empty if there are none (`isEquivalent_iff`).
-/

namespace RegularLanguage.DFA

open Std MatrixAutomaton

variable {d e : DFA} {j : Nat} {q : State} {w : Word} {rule : Bool → Bool → Bool}

/-! ## Matrices of deterministic automata -/

theorem ofNFA_toNFA (d : DFA) : ofNFA d.toNFA = ofSymbolMoves d.toNFA := by
  rw [ofNFA, toNFA_hasSilentMoves]
  rfl

theorem ofNFA_toNFA_final (hj : d.states[j]? = some q) :
    (ofNFA d.toNFA).final.flag j = d.final.contains q := by
  have hfinal : (ofSymbolMoves d.toNFA).final.flag j = true ↔
      ∃ q, d.states[j]? = some q ∧ q ∈ d.final := ofSymbolMoves_final_iff
  rw [ofNFA_toNFA, Bool.eq_iff_iff, hfinal, hj, List.contains_iff_mem]
  simp

section

variable (hd : d.IsValid)

include hd

theorem ofNFA_toNFA_isProper : (ofNFA d.toNFA).IsProper := ofNFA_isProper (toNFA_isValid hd)

theorem ofNFA_toNFA_reaches_iff : (ofNFA d.toNFA).Reaches w j ↔
    ∃ q, d.states[j]? = some q ∧ d.runFrom d.start w = some q := by
  rw [ofNFA_toNFA, ofSymbolMoves_reaches_iff (toNFA_isValid hd) (toNFA_hasSilentMoves d)]
  simp only [toNFA_path_iff hd]
  exact Iff.rfl

end

/-! ## Products of deterministic automata -/

section

variable (hd : d.IsValid) (he : e.IsValid)

include hd he

/-- The product judges the words on which both automata run, by what they say of them. -/
theorem product_toNFA_accepts_iff :
    (product rule (ofNFA d.toNFA) (ofNFA e.toNFA)).accepts w = true ↔
      (∃ q, d.runFrom d.start w = some q) ∧ (∃ r, e.runFrom e.start w = some r) ∧
        rule (d.accepts w) (e.accepts w) = true := by
  rw [product_accepts_iff (ofNFA_toNFA_isProper hd) (ofNFA_toNFA_isProper he)]
  simp only [ofNFA_toNFA_reaches_iff hd, ofNFA_toNFA_reaches_iff he]
  constructor
  · rintro ⟨i, j, ⟨q, hi, hq⟩, ⟨r, hj, hr⟩, hrule⟩
    rw [ofNFA_toNFA_final hi, ofNFA_toNFA_final hj] at hrule
    refine ⟨⟨q, hq⟩, ⟨r, hr⟩, ?_⟩
    rwa [accepts, accepts, acceptsFrom_of_runFrom hq, acceptsFrom_of_runFrom hr]
  · rintro ⟨⟨q, hq⟩, ⟨r, hr⟩, hrule⟩
    obtain ⟨i, hi⟩ := List.getElem?_of_mem (hd.mem_of_runFrom hd.start_mem hq)
    obtain ⟨j, hj⟩ := List.getElem?_of_mem (he.mem_of_runFrom he.start_mem hr)
    rw [accepts, accepts, acceptsFrom_of_runFrom hq, acceptsFrom_of_runFrom hr] at hrule
    refine ⟨i, j, ⟨q, hi, hq⟩, ⟨r, hj, hr⟩, ?_⟩
    rwa [ofNFA_toNFA_final hi, ofNFA_toNFA_final hj]

/-! ## The decision -/

def difference (d e : DFA) : MatrixAutomaton :=
  product xor (ofNFA (d.complete e.alphabet).toNFA) (ofNFA (e.complete d.alphabet).toNFA)

/-- Completed over each other's alphabets, both automata run on the same words. -/
theorem exists_complete_runFrom_iff_exists :
    (∃ q, (d.complete e.alphabet).runFrom d.start w = some q) ↔
      ∃ r, (e.complete d.alphabet).runFrom e.start w = some r := by
  have hstart : d.start ∈ (d.complete e.alphabet).states :=
    mem_complete_states.2 (.inl hd.start_mem)
  have hstart' : e.start ∈ (e.complete d.alphabet).states :=
    mem_complete_states.2 (.inl he.start_mem)
  rw [exists_complete_runFrom_iff hd hstart, exists_complete_runFrom_iff he hstart']
  exact forall₂_congr fun a _ => or_comm

theorem difference_isProper : (difference d e).IsProper :=
  product_isProper (ofNFA_toNFA_isProper (complete_isValid hd))
    (ofNFA_toNFA_isProper (complete_isValid he))

/-- The words on which the automata differ are accepted. -/
theorem difference_accepts_iff :
    (difference d e).accepts w = true ↔ d.accepts w ≠ e.accepts w := by
  rw [difference, product_toNFA_accepts_iff (complete_isValid hd) (complete_isValid he),
    complete_accepts hd, complete_accepts he, complete_start, complete_start,
    ← exists_complete_runFrom_iff_exists hd he, ← and_assoc, and_self, xor, bne_iff_ne]
  refine and_iff_right_of_imp fun hne => ?_
  -- the word is accepted by one of the automata
  cases hw : d.accepts w with
  | true => exact exists_complete_runFrom_of_accepts hd hw
  | false =>
    have hw' : e.accepts w = true := Bool.not_eq_false _ ▸ fun h => hne (hw.trans h.symm)
    exact (exists_complete_runFrom_iff_exists hd he).2 (exists_complete_runFrom_of_accepts he hw')

end

/-- The automata are found to be equivalent exactly when they accept the same words. -/
theorem isEquivalent_iff (d e : DFA) (hd : d.IsValid) (he : e.IsValid) :
    d.isEquivalent e = true ↔ ∀ w, d.accepts w = e.accepts w := by
  have hfound : d.isEquivalent e = (difference d e).isEmpty := rfl
  rw [hfound, (difference_isProper hd he).isEmpty_iff]
  refine forall_congr' fun w => ?_
  rw [← Bool.not_eq_true, difference_accepts_iff hd he]
  exact not_ne_iff

/-- The word "a" alone, by a partial automaton. -/
def single : DFA := ofParts [0, 1] 0 [1] [⟨0, "a", 1⟩] [] []

/-- The word "a" alone, by a total automaton that knows another symbol. -/
def singleTotal : DFA :=
  ofParts [7, -3, 4] 7 [-3] [⟨7, "a", -3⟩, ⟨7, "b", 4⟩, ⟨-3, "a", 4⟩, ⟨-3, "b", 4⟩, ⟨4, "a", 4⟩,
    ⟨4, "b", 4⟩] [] []

theorem single_isValid : single.IsValid :=
  ofParts_isValid (by decide) (by decide) (by decide) (by decide)

theorem singleTotal_isValid : singleTotal.IsValid :=
  ofParts_isValid (by decide) (by decide) (by decide) (by decide)

/-- One run of the search settles what both automata say of every word. -/
theorem isEquivalent_iff_single : single.IsValid ∧ singleTotal.IsValid ∧
    single.isEquivalent singleTotal = true ∧ ∀ w, single.accepts w = singleTotal.accepts w := by
  have hfound : single.isEquivalent singleTotal = true := by decide +kernel
  exact ⟨single_isValid, singleTotal_isValid, hfound,
    (isEquivalent_iff single singleTotal single_isValid singleTotal_isValid).1 hfound⟩

end RegularLanguage.DFA
