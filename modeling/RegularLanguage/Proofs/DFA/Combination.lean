import RegularLanguage.Proofs.DFA.Equivalence
import RegularLanguage.Proofs.Matrix.Intersection
/-!
# Boolean combinations

A complete deterministic automaton is in one state after each word over its alphabet, so its
matrices are in one index (`DFA.exists_run_eq_singleton`). The product of two automata that are in
one index each is in the pair of the two (`MatrixAutomaton.product_run_eq_singleton`). Its verdict
is then the one that the rule makes of both verdicts, also for rules that hold of two words which
are not accepted (`DFA.product_accepts_eq_rule`).
-/

namespace RegularLanguage

/-! ## Fronts of one index -/

namespace MatrixAutomaton

variable {m a b : MatrixAutomaton} {rule : Bool → Bool → Bool} {i j : Nat} {s : Symbol} {w : Word}
  {front : List Nat}

theorem ascending_of_run (h : m.run w = some front) : Ascending front := by
  cases w using List.reverseRecOn with
  | nil =>
    obtain rfl := Option.some.inj h
    exact (List.pairwise_lt_range.imp Nat.compare_eq_lt.2).filter _
  | append_singleton w s =>
    rw [run_concat] at h
    obtain ⟨_, -, h⟩ := Option.bind_eq_some_iff.1 h
    obtain ⟨matrix, -, rfl⟩ := Option.map_eq_some_iff.1 h
    exact Ascending.ascending_ofList _

/-- There is one index in the front if the word leads to one index. -/
theorem run_eq_singleton_iff : m.run w = some [i] ↔ ∀ j, m.Reaches w j ↔ j = i := by
  constructor
  · intro h j
    simp [Reaches, h]
  · intro h
    obtain ⟨front, hfront, -⟩ := (h i).2 rfl
    have hmem : ∀ j, j ∈ front ↔ j ∈ [i] := by
      intro j
      rw [List.mem_singleton, ← h j]
      simp [Reaches, hfront]
    rw [hfront, Ascending.ext (ascending_of_run hfront) (List.pairwise_singleton _ i) hmem]

/-- The index that is left alone gives the verdict. -/
theorem accepts_of_run_eq_singleton (h : m.run w = some [i]) :
    m.accepts w = m.final.flag i := by
  simp [accepts, h]

/-- A word with a symbol that has no matrix is rejected. -/
theorem IsProper.accepts_eq_false (h : m.IsProper) (hs : s ∈ w) (hunknown : ¬ m.Knows s) :
    m.accepts w = false := by
  rw [← Bool.not_eq_true, accepts_iff_reaches]
  rintro ⟨i, ⟨front, hfront, -⟩, -⟩
  exact hunknown (h.exists_run_iff.1 ⟨front, hfront⟩ s hs)

section

variable (ha : a.IsProper) (hb : b.IsProper) (hi : a.run w = some [i]) (hj : b.run w = some [j])

include ha hb hi hj

/-- The product stays in one pair as long as its parts stay in one index each. -/
theorem product_run_eq_singleton : (product rule a b).run w = some [i * b.size + j] := by
  rw [run_eq_singleton_iff] at hi hj ⊢
  intro k
  simp only [product_reaches_iff ha hb, hi, hj]
  constructor
  · rintro ⟨_, _, rfl, rfl, rfl⟩
    rfl
  · rintro rfl
    exact ⟨i, j, rfl, rfl, rfl⟩

theorem product_accepts_of_run_eq_singleton :
    (product rule a b).accepts w = rule (a.accepts w) (b.accepts w) := by
  have hi' : i < a.size := ha.lt_size_of_reaches ((run_eq_singleton_iff.1 hi i).2 rfl)
  have hj' : j < b.size := hb.lt_size_of_reaches ((run_eq_singleton_iff.1 hj j).2 rfl)
  rw [accepts_of_run_eq_singleton (product_run_eq_singleton ha hb hi hj),
    accepts_of_run_eq_singleton hi, accepts_of_run_eq_singleton hj,
    product_final_flag ha hb hi' hj']

end

end MatrixAutomaton

/-! ## Complete automata -/

namespace DFA

open MatrixAutomaton

variable {d e : DFA} {a : Symbol} {w : Word}

theorem ofNFA_toNFA_knows_iff : (ofNFA d.toNFA).Knows a ↔ a ∈ d.alphabet := by
  have hmatrices : ∃ f : Symbol → BoolMatrix,
      (ofNFA d.toNFA).matrices = d.alphabet.map fun a => (a, f a) := by
    rw [ofNFA_toNFA]
    exact ⟨_, rfl⟩
  obtain ⟨f, hf⟩ := hmatrices
  simp [Knows, hf]

section

variable (hd : d.IsValid)

include hd

theorem ofNFA_toNFA_accepts : (ofNFA d.toNFA).accepts w = d.accepts w := by
  rw [ofNFA_accepts (toNFA_isValid hd), toNFA_accepts hd]

/-- After a word over its alphabet, a complete automaton is in one index. -/
theorem exists_run_eq_singleton (hcomplete : d.isComplete = true)
    (hw : ∀ a ∈ w, a ∈ d.alphabet) : ∃ i, (ofNFA d.toNFA).run w = some [i] := by
  have htotal : ∀ q ∈ d.states, ∀ a ∈ d.alphabet, ∃ r, d.delta q a = some r :=
    isCompleteOver_eq_true_iff.1 hcomplete
  obtain ⟨q, hq⟩ := hd.exists_runFrom_of_total htotal hd.start_mem hw
  obtain ⟨i, hi⟩ := List.getElem?_of_mem (hd.mem_of_runFrom hd.start_mem hq)
  refine ⟨i, run_eq_singleton_iff.2 fun j => ?_⟩
  rw [ofNFA_toNFA_reaches_iff hd]
  constructor
  · rintro ⟨r, hj, hr⟩
    obtain rfl := Option.some.inj (hq.symm.trans hr)
    -- a state has one index
    obtain ⟨hlt, -⟩ := List.getElem?_eq_some_iff.1 hj
    exact (List.getElem?_inj hlt hd.states_ascending.nodup).1 (hj.trans hi.symm)
  · rintro rfl
    exact ⟨q, hi, hq⟩

end

/-- The product of two complete automata with one alphabet is in one pair after each word over the
alphabet, and it makes the two verdicts into one by the rule. Other words are rejected, whatever
the rule says of words that neither automaton accepts. -/
theorem product_accepts_eq_rule (d e : DFA) (hd : d.IsValid) (he : e.IsValid)
    (halphabet : d.alphabet = e.alphabet) (hd' : d.isComplete = true) (he' : e.isComplete = true)
    (rule : Bool → Bool → Bool) (w : Word) :
    ((∀ a ∈ w, a ∈ d.alphabet) →
      (∃ k, (product rule (ofNFA d.toNFA) (ofNFA e.toNFA)).run w = some [k]) ∧
        (product rule (ofNFA d.toNFA) (ofNFA e.toNFA)).accepts w =
          rule (d.accepts w) (e.accepts w)) ∧
      ((∃ a ∈ w, a ∉ d.alphabet) →
        (product rule (ofNFA d.toNFA) (ofNFA e.toNFA)).accepts w = false) := by
  have hdp := ofNFA_toNFA_isProper hd
  have hep := ofNFA_toNFA_isProper he
  constructor
  · intro hw
    obtain ⟨i, hi⟩ := exists_run_eq_singleton hd hd' hw
    obtain ⟨j, hj⟩ := exists_run_eq_singleton he he' (halphabet ▸ hw)
    refine ⟨⟨_, product_run_eq_singleton hdp hep hi hj⟩, ?_⟩
    rw [product_accepts_of_run_eq_singleton hdp hep hi hj, ofNFA_toNFA_accepts hd,
      ofNFA_toNFA_accepts he]
  · rintro ⟨a, ha, hunknown⟩
    refine (product_isProper hdp hep).accepts_eq_false ha fun hknown => ?_
    exact hunknown (ofNFA_toNFA_knows_iff.1 ((product_knows_iff hep).1 hknown).1)

/-- The words over "a" and "b" with an odd number of "b". -/
def oddly : DFA :=
  ofParts [2, 5] 2 [5] [⟨2, "a", 2⟩, ⟨2, "b", 5⟩, ⟨5, "a", 5⟩, ⟨5, "b", 2⟩] [] []

theorem oddly_isValid : oddly.IsValid :=
  ofParts_isValid (by decide) (by decide) (by decide) (by decide)

/-- The rule "neither" holds of the verdicts on a foreign symbol, which is rejected all the same. -/
theorem product_accepts_eq_rule_neither :
    singleTotal.IsValid ∧ oddly.IsValid ∧ singleTotal.alphabet = oddly.alphabet ∧
      singleTotal.isComplete = true ∧ oddly.isComplete = true ∧
      (product (fun x y => !(x || y)) (ofNFA singleTotal.toNFA) (ofNFA oddly.toNFA)).accepts
        ["b", "b"] = true ∧
      (product (fun x y => !(x || y)) (ofNFA singleTotal.toNFA) (ofNFA oddly.toNFA)).accepts
        ["a"] = false ∧
      (product (fun x y => !(x || y)) (ofNFA singleTotal.toNFA) (ofNFA oddly.toNFA)).accepts
        ["c"] = false := by
  have halphabet : singleTotal.alphabet = oddly.alphabet := by decide +kernel
  have hsingle : singleTotal.isComplete = true := by decide +kernel
  have hoddly : oddly.isComplete = true := by decide +kernel
  have hrule := product_accepts_eq_rule singleTotal oddly singleTotal_isValid oddly_isValid
    halphabet hsingle hoddly fun x y => !(x || y)
  refine ⟨singleTotal_isValid, oddly_isValid, halphabet, hsingle, hoddly, ?_, ?_, ?_⟩
  · rw [((hrule ["b", "b"]).1 (by decide +kernel)).2]
    decide +kernel
  · rw [((hrule ["a"]).1 (by decide +kernel)).2]
    decide +kernel
  · exact (hrule ["c"]).2 (by decide +kernel)

end DFA

end RegularLanguage
