import RegularLanguage.Matrix.Product
import RegularLanguage.Proofs.Matrix.Automaton
/-!
# Runs of products

A word leads to a pair in the product exactly when it leads to both parts of the pair
(`MatrixAutomaton.product_reaches_iff`), whatever the rule that tells which pairs are final.
-/

namespace RegularLanguage.MatrixAutomaton

variable {a b : MatrixAutomaton} {rule : Bool → Bool → Bool} {i j k : Nat} {s : Symbol} {w : Word}
  {matrix : BoolMatrix}

theorem size_product : (product rule a b).size = a.size * b.size := Mask.size_outer

theorem mem_product_matrices (hb : b.IsProper) : (s, matrix) ∈ (product rule a b).matrices ↔
    ∃ m m', (s, m) ∈ a.matrices ∧ (s, m') ∈ b.matrices ∧ m.kronecker m' = matrix := by
  simp only [product, List.mem_filterMap, Option.map_eq_some_iff, hb.lookup_iff]
  constructor
  · rintro ⟨⟨s', m⟩, hm, m', hm', heq⟩
    cases heq
    exact ⟨m, m', hm, hm', rfl⟩
  · rintro ⟨m, m', hm, hm', rfl⟩
    exact ⟨(s, m), hm, m', hm', rfl⟩

theorem product_start_iff : (product rule a b).start.flag k = true ↔
    ∃ i j, a.start.flag i = true ∧ b.start.flag j = true ∧ i * b.size + j = k := by
  have hflag : ∀ {i j}, i < a.size → j < b.size →
      (product rule a b).start.flag (i * b.size + j) = (a.start.flag i && b.start.flag j) :=
    Mask.flag_outer
  constructor
  · intro hk
    have hlt : k < (product rule a b).size := Mask.lt_size_of_flag hk
    rw [size_product] at hlt
    obtain ⟨i, hi, j, hj, rfl⟩ := exists_pair hlt
    obtain ⟨hi', hj'⟩ := Bool.and_eq_true_iff.1 (hflag hi hj ▸ hk)
    exact ⟨i, j, hi', hj', rfl⟩
  · rintro ⟨i, j, hi, hj, rfl⟩
    rw [hflag (Mask.lt_size_of_flag hi) (Mask.lt_size_of_flag hj), hi, hj]
    rfl

section

variable (ha : a.IsProper) (hb : b.IsProper)

include ha hb

theorem product_isProper : (product rule a b).IsProper := by
  refine ⟨?_, fun ⟨s, matrix⟩ hx => ?_, ?_⟩
  · rw [size_product, product, Mask.size_outer, ha.final_size, hb.final_size]
  · obtain ⟨m, m', hm, hm', rfl⟩ := (mem_product_matrices hb).1 hx
    rw [size_product]
    exact (ha.square _ hm).kronecker (hb.square _ hm')
  · refine List.Pairwise.filterMap _ (fun x y hxy x' hx' y' hy' => ?_) ha.distinct
    obtain ⟨_, -, rfl⟩ := Option.map_eq_some_iff.1 hx'
    obtain ⟨_, -, rfl⟩ := Option.map_eq_some_iff.1 hy'
    exact hxy

/-- A symbol leads from a pair to the pairs of what it leads to from the parts. -/
theorem product_moves_iff (hj : j < b.size) : (product rule a b).Moves s (i * b.size + j) k ↔
    ∃ i' j', a.Moves s i i' ∧ b.Moves s j j' ∧ i' * b.size + j' = k := by
  simp only [Moves, (product_isProper ha hb).lookup_iff, ha.lookup_iff, hb.lookup_iff,
    mem_product_matrices hb]
  constructor
  · rintro ⟨-, ⟨m, m', hm, hm', rfl⟩, hk⟩
    have hsize : m'.size = b.size := (hb.square _ hm').size_eq
    rw [← hsize] at hj hk
    obtain ⟨i', hi', j', hj', rfl⟩ := (BoolMatrix.mem_row_kronecker hj).1 hk
    exact ⟨i', j', ⟨m, hm, hi'⟩, ⟨m', hm', hj'⟩, by rw [hsize]⟩
  · rintro ⟨i', j', ⟨m, hm, hi'⟩, ⟨m', hm', hj'⟩, rfl⟩
    have hsize : m'.size = b.size := (hb.square _ hm').size_eq
    refine ⟨_, ⟨m, m', hm, hm', rfl⟩, ?_⟩
    rw [← hsize] at hj ⊢
    exact (BoolMatrix.mem_row_kronecker hj).2 ⟨i', hi', j', hj', rfl⟩

/-- A word leads to a pair if it leads to its parts. -/
theorem product_reaches_iff : (product rule a b).Reaches w k ↔
    ∃ i j, a.Reaches w i ∧ b.Reaches w j ∧ i * b.size + j = k := by
  induction w using List.reverseRecOn generalizing k with
  | nil => simp only [reaches_nil, product_start_iff]
  | append_singleton w s ih =>
    simp only [reaches_concat, ih]
    constructor
    · rintro ⟨-, ⟨i, j, hi, hj, rfl⟩, hk⟩
      obtain ⟨i', j', hi', hj', rfl⟩ :=
        (product_moves_iff ha hb (hb.lt_size_of_reaches hj)).1 hk
      exact ⟨i', j', ⟨i, hi, hi'⟩, ⟨j, hj, hj'⟩, rfl⟩
    · rintro ⟨i', j', ⟨i, hi, hi'⟩, ⟨j, hj, hj'⟩, rfl⟩
      exact ⟨_, ⟨i, j, hi, hj, rfl⟩,
        (product_moves_iff ha hb (hb.lt_size_of_reaches hj)).2 ⟨i', j', hi', hj', rfl⟩⟩

/-- The rule tells whether a pair is final. -/
theorem product_final_flag (hi : i < a.size) (hj : j < b.size) :
    (product rule a b).final.flag (i * b.size + j) = rule (a.final.flag i) (b.final.flag j) := by
  rw [← ha.final_size] at hi
  rw [← hb.final_size] at hj ⊢
  exact Mask.flag_outer hi hj

/-- A word is accepted if it leads to a pair of indices whose flags obey the rule. -/
theorem product_accepts_iff : (product rule a b).accepts w = true ↔
    ∃ i j, a.Reaches w i ∧ b.Reaches w j ∧ rule (a.final.flag i) (b.final.flag j) = true := by
  have hflag : ∀ {i j}, a.Reaches w i → b.Reaches w j →
      (product rule a b).final.flag (i * b.size + j) = rule (a.final.flag i) (b.final.flag j) :=
    fun hi hj => product_final_flag ha hb (ha.lt_size_of_reaches hi) (hb.lt_size_of_reaches hj)
  simp only [accepts_iff_reaches, product_reaches_iff ha hb]
  constructor
  · rintro ⟨-, ⟨i, j, hi, hj, rfl⟩, hfinal⟩
    exact ⟨i, j, hi, hj, hflag hi hj ▸ hfinal⟩
  · rintro ⟨i, j, hi, hj, hrule⟩
    exact ⟨_, ⟨i, j, hi, hj, rfl⟩, (hflag hi hj).trans hrule⟩

end

end RegularLanguage.MatrixAutomaton
