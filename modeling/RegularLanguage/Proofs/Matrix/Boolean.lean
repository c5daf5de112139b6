import RegularLanguage.Matrix.Boolean
/-!
# Entries of Boolean matrices

What is set in an image and in a Kronecker product (`BoolMatrix.mem_row_kronecker`). The product
numbers pairs of indices row by row.
-/

namespace RegularLanguage

/-! ## Numbers of pairs -/

section

variable {i j m n : Nat}

theorem pair_lt (hi : i < m) (hj : j < n) : i * n + j < m * n :=
  calc i * n + j < i * n + n := Nat.add_lt_add_left hj _
    _ = (i + 1) * n := (Nat.succ_mul i n).symm
    _ ≤ m * n := Nat.mul_le_mul_right n hi

/-- Every number is that of a pair. -/
theorem exists_pair {k : Nat} (h : k < m * n) : ∃ i < m, ∃ j < n, i * n + j = k := by
  have hn : 0 < n := Nat.pos_of_mul_pos_left (Nat.zero_lt_of_lt h)
  exact ⟨k / n, Nat.div_lt_of_lt_mul (Nat.mul_comm m n ▸ h), k % n, Nat.mod_lt k hn,
    Nat.div_add_mod' k n⟩

/-- Pairs with the same number are the same. -/
theorem pair_inj {i' j' : Nat} (hj : j < n) (hj' : j' < n) (h : i * n + j = i' * n + j') :
    i = i' ∧ j = j' := by
  have hn : 0 < n := Nat.zero_lt_of_lt hj
  have hi : (i * n + j) / n = i := by
    rw [Nat.mul_comm, Nat.mul_add_div hn, Nat.div_eq_of_lt hj, Nat.add_zero]
  have hi' : (i' * n + j') / n = i' := by
    rw [Nat.mul_comm, Nat.mul_add_div hn, Nat.div_eq_of_lt hj', Nat.add_zero]
  have hii : i = i' := by rw [← hi, h, hi']
  subst hii
  exact ⟨rfl, Nat.add_left_cancel h⟩

variable {α β γ : Type} {f : α → β → γ} {xs : List α} {ys : List β}

theorem length_flatMap_map : (xs.flatMap fun x => ys.map (f x)).length = xs.length * ys.length := by
  induction xs with
  | nil => simp
  | cons x xs ih =>
    rw [List.flatMap_cons, List.length_append, List.length_map, ih, List.length_cons,
      Nat.succ_mul, Nat.add_comm]

/-- What a list made of all pairs has at the number of a pair. -/
theorem getElem?_flatMap_map (hj : j < ys.length) :
    (xs.flatMap fun x => ys.map (f x))[i * ys.length + j]? =
      xs[i]?.bind fun x => ys[j]?.map (f x) := by
  induction xs generalizing i with
  | nil => simp
  | cons x xs ih =>
    rw [List.flatMap_cons]
    cases i with
    | zero =>
      rw [Nat.zero_mul, Nat.zero_add, List.getElem?_append_left (by rwa [List.length_map])]
      simp
    | succ i =>
      have hindex : (i + 1) * ys.length + j = i * ys.length + j + (ys.map (f x)).length := by
        rw [List.length_map, Nat.succ_mul]
        omega
      rw [hindex, List.getElem?_append_right (Nat.le_add_left _ _), Nat.add_sub_cancel, ih,
        List.getElem?_cons_succ]

end

namespace BoolMatrix

variable {a b : BoolMatrix} {i j k m n : Nat} {front : List Nat}

theorem mem_row_iff : j ∈ a.row i ↔ ∃ columns, a.rows[i]? = some columns ∧ j ∈ columns := by
  rw [row]
  cases a.rows[i]? <;> simp

theorem lt_size_of_mem_row (h : j ∈ a.row i) : i < a.size := by
  obtain ⟨columns, hcolumns, -⟩ := mem_row_iff.1 h
  exact (Array.getElem?_eq_some_iff.1 hcolumns).1

@[simp]
theorem mem_image : j ∈ a.image front ↔ ∃ i ∈ front, j ∈ a.row i := by
  rw [image, Ascending.mem_ofList, List.mem_flatMap]

structure IsSquare (a : BoolMatrix) (n : Nat) : Prop where
  size_eq : a.size = n
  lt_of_mem_row : ∀ i, ∀ j ∈ a.row i, j < n

/-! ## Kronecker products -/

theorem size_kronecker : (a.kronecker b).size = a.size * b.size := by
  rw [size, kronecker, List.size_toArray, length_flatMap_map]
  rfl

/-- A pair leads to the pairs of what its parts lead to. -/
theorem mem_row_kronecker (hj : j < b.size) : k ∈ (a.kronecker b).row (i * b.size + j) ↔
    ∃ i' ∈ a.row i, ∃ j' ∈ b.row j, i' * b.size + j' = k := by
  have hpairs : (a.rows.toList.flatMap fun columns => b.rows.toList.map fun columns' =>
        columns.flatMap fun i' => columns'.map fun j' => i' * b.size + j')[i * b.size + j]? =
      a.rows.toList[i]?.bind fun columns => b.rows.toList[j]?.map fun columns' =>
        columns.flatMap fun i' => columns'.map fun j' => i' * b.size + j' :=
    getElem?_flatMap_map hj
  have hrow : (a.kronecker b).rows[i * b.size + j]? = a.rows[i]?.bind fun columns =>
      b.rows[j]?.map fun columns' =>
        columns.flatMap fun i' => columns'.map fun j' => i' * b.size + j' := by
    rw [kronecker, List.getElem?_toArray, hpairs, Array.getElem?_toList, Array.getElem?_toList]
  rw [mem_row_iff, hrow]
  simp only [mem_row_iff, Option.bind_eq_some_iff, Option.map_eq_some_iff]
  constructor
  · rintro ⟨-, ⟨columns, hi, columns', hj, rfl⟩, hk⟩
    obtain ⟨i', hi', hk⟩ := List.mem_flatMap.1 hk
    obtain ⟨j', hj', rfl⟩ := List.mem_map.1 hk
    exact ⟨i', ⟨columns, hi, hi'⟩, j', ⟨columns', hj, hj'⟩, rfl⟩
  · rintro ⟨i', ⟨columns, hi, hi'⟩, j', ⟨columns', hj, hj'⟩, rfl⟩
    exact ⟨_, ⟨columns, hi, columns', hj, rfl⟩,
      List.mem_flatMap.2 ⟨i', hi', List.mem_map.2 ⟨j', hj', rfl⟩⟩⟩

theorem IsSquare.kronecker (ha : a.IsSquare m) (hb : b.IsSquare n) :
    (a.kronecker b).IsSquare (m * n) := by
  have hsize : (a.kronecker b).size = m * n := by rw [size_kronecker, ha.size_eq, hb.size_eq]
  refine ⟨hsize, fun p k hk => ?_⟩
  have hp : p < m * n := hsize ▸ lt_size_of_mem_row hk
  obtain ⟨i, -, j, hj, rfl⟩ := exists_pair hp
  obtain rfl := hb.size_eq
  obtain ⟨i', hi', j', hj', rfl⟩ := (mem_row_kronecker hj).1 hk
  exact pair_lt (ha.lt_of_mem_row _ i' hi') (hb.lt_of_mem_row _ j' hj')

end BoolMatrix

end RegularLanguage
