import RegularLanguage.Ascending
/-!
# Boolean matrices

A square Boolean matrix is kept as its rows, a row as the ascending list of the columns that are
set. A set of indices is moved by a matrix to the columns set in their rows.

| here | `relang` |
| --- | --- |
| `BoolMatrix` | `csc_matrix` of Booleans |
| `image` | `_step` |
| `kronecker` | `scipy.sparse.kron` |
-/

namespace RegularLanguage

/-- A square Boolean matrix by its rows. -/
structure BoolMatrix where
  rows : Array (List Nat)
deriving DecidableEq

namespace BoolMatrix

def size (m : BoolMatrix) : Nat := m.rows.size

def row (m : BoolMatrix) (i : Nat) : List Nat := m.rows[i]?.getD []

def entry (m : BoolMatrix) (i j : Nat) : Bool := (m.row i).contains j

/-- The entries that are set, by ascending rows and then columns. -/
def entries (m : BoolMatrix) : List (Nat × Nat) :=
  (List.range m.size).flatMap fun i => (m.row i).map fun j => (i, j)

/-- The indices to which some index of the front is moved. -/
def image (m : BoolMatrix) (front : List Nat) : List Nat := Ascending.ofList (front.flatMap m.row)

/-- The Kronecker product: the index of the pair of `i` and `j` is `i * b.size + j`. -/
def kronecker (a b : BoolMatrix) : BoolMatrix where
  rows := (a.rows.toList.flatMap fun ra => b.rows.toList.map fun rb =>
    ra.flatMap fun i => rb.map fun j => i * b.size + j).toArray

end BoolMatrix

end RegularLanguage
