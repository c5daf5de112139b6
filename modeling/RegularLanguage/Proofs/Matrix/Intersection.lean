import RegularLanguage.Proofs.Matrix.OfNFA
import RegularLanguage.Proofs.Matrix.Product
/-!
# Words that two automata accept

The product runs on the words of which both automata know all symbols, and it is then in the pairs
of what they are in. So with the rule "and" it accepts the words that both accept
(`product_tracks_both`). Automata that are made from others (`ofNFA_isProper`), and products of
such (`product_isProper`), are proper.
-/

namespace RegularLanguage.MatrixAutomaton

variable {a b : MatrixAutomaton} {rule : Bool → Bool → Bool} {i j : Nat} {s : Symbol} {w : Word}

/-- The product knows the symbols that both automata know. -/
theorem product_knows_iff (hb : b.IsProper) :
    (product rule a b).Knows s ↔ a.Knows s ∧ b.Knows s := by
  simp only [Knows, mem_product_matrices hb]
  constructor
  · rintro ⟨-, m, m', hm, hm', rfl⟩
    exact ⟨⟨m, hm⟩, m', hm'⟩
  · rintro ⟨⟨m, hm⟩, m', hm'⟩
    exact ⟨_, m, m', hm, hm', rfl⟩

section

variable (ha : a.IsProper) (hb : b.IsProper)

include ha hb

/-- A word leads to a pair if it leads to both parts of the pair. -/
theorem product_reaches_pair_iff (hj : j < b.size) :
    (product rule a b).Reaches w (i * b.size + j) ↔ a.Reaches w i ∧ b.Reaches w j := by
  rw [product_reaches_iff ha hb]
  constructor
  · rintro ⟨i', j', hi', hj', heq⟩
    obtain ⟨rfl, rfl⟩ := pair_inj (hb.lt_size_of_reaches hj') hj heq
    exact ⟨hi', hj'⟩
  · rintro ⟨hi, hj⟩
    exact ⟨i, j, hi, hj, rfl⟩

theorem product_and_accepts : (product and a b).accepts w = (a.accepts w && b.accepts w) := by
  rw [Bool.eq_iff_iff, product_accepts_iff ha hb]
  simp only [Bool.and_eq_true, accepts_iff_reaches]
  constructor
  · rintro ⟨i, j, hi, hj, hfi, hfj⟩
    exact ⟨⟨i, hi, hfi⟩, j, hj, hfj⟩
  · rintro ⟨⟨i, hi, hfi⟩, j, hj, hfj⟩
    exact ⟨i, j, hi, hj, hfi, hfj⟩

end

/-- On a word of which both automata know all symbols, the product is in the pair of two indices
exactly when the one automaton is in the first index and the other in the second. With the rule
"and" it accepts the words that both accept, whatever symbols they have. -/
theorem product_tracks_both (a b : MatrixAutomaton) (ha : a.IsProper) (hb : b.IsProper) :
    (∀ (rule : Bool → Bool → Bool) (w : Word), (∀ s ∈ w, a.Knows s ∧ b.Knows s) →
      ∃ f g front, a.run w = some f ∧ b.run w = some g ∧
        (product rule a b).run w = some front ∧
        ∀ i j, j < b.size → (i * b.size + j ∈ front ↔ i ∈ f ∧ j ∈ g)) ∧
      ∀ w, (product and a b).accepts w = (a.accepts w && b.accepts w) := by
  refine ⟨fun rule w hw => ?_, fun w => product_and_accepts ha hb⟩
  have hp : (product rule a b).IsProper := product_isProper ha hb
  obtain ⟨f, hf⟩ := ha.exists_run_iff.2 fun s hs => (hw s hs).1
  obtain ⟨g, hg⟩ := hb.exists_run_iff.2 fun s hs => (hw s hs).2
  obtain ⟨front, hfront⟩ := hp.exists_run_iff.2 fun s hs => (product_knows_iff hb).2 (hw s hs)
  refine ⟨f, g, front, hf, hg, hfront, fun i j hj => ?_⟩
  have hpair : (product rule a b).Reaches w (i * b.size + j) ↔ a.Reaches w i ∧ b.Reaches w j :=
    product_reaches_pair_iff ha hb hj
  simpa [Reaches, hf, hg, hfront] using hpair

/-- An automaton made from one with silent moves. -/
def rounds : MatrixAutomaton := ofNFA NFA.roundabout

/-- A product, of which one side knows the symbols "a" and "d" only. -/
def widerRounds : MatrixAutomaton :=
  product or (ofNFA (.ofParts [0, 7] 0 [7] [⟨0, some "a", 7⟩, ⟨7, some "d", 0⟩] [])) rounds

theorem rounds_isProper : rounds.IsProper := ofNFA_isProper NFA.roundabout_isValid

theorem widerRounds_isProper : widerRounds.IsProper :=
  product_isProper (ofNFA_isProper (NFA.ofParts_isValid (by decide) (by decide) (by decide)))
    rounds_isProper

theorem product_tracks_both_rounds : rounds.IsProper ∧ widerRounds.IsProper ∧
    (∀ s ∈ ["a"], rounds.Knows s ∧ widerRounds.Knows s) ∧
    (∃ f g front, rounds.run ["a"] = some f ∧ widerRounds.run ["a"] = some g ∧
      (product xor rounds widerRounds).run ["a"] = some front ∧
      ∀ i j, j < widerRounds.size → (i * widerRounds.size + j ∈ front ↔ i ∈ f ∧ j ∈ g)) ∧
    ∀ w, (product and rounds widerRounds).accepts w =
      (rounds.accepts w && widerRounds.accepts w) := by
  have hknown : ∀ s ∈ ["a"], rounds.Knows s ∧ widerRounds.Knows s := by
    intro s hs
    exact ⟨rounds_isProper.exists_run_iff.1 ⟨[0, 2], by decide +kernel⟩ s hs,
      widerRounds_isProper.exists_run_iff.1 ⟨[3, 5], by decide +kernel⟩ s hs⟩
  obtain ⟨htracks, haccepts⟩ :=
    product_tracks_both rounds widerRounds rounds_isProper widerRounds_isProper
  exact ⟨rounds_isProper, widerRounds_isProper, hknown, htracks xor ["a"] hknown, haccepts⟩

end RegularLanguage.MatrixAutomaton
