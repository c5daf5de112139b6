import Mathlib.Data.List.Basic
import RegularLanguage.Proofs.Checked.DFA
import RegularLanguage.Proofs.Checked.NFA
import RegularLanguage.Proofs.DFA.Equivalence
/-!
# Guarded matrices of automata

Each edge sets a cell of the matrix of its symbol, in the row of its source and the column of its
target. The symbol has to be in the alphabet, and both ends, the start and the final states must
have indices. A product looks up the matrices of the symbols that both automata share. No guard
fails (`ofNFA_eq_ok`, `isEquivalent_eq_ok`).

| here | `relang` |
| --- | --- |
| `cell` | `rows` and `cols` of `from_automaton` |
| `ofNFA`, `product`, `isEquivalent` | `from_automaton`, `intersect_automata`, `are_equivalent` |
-/

namespace RegularLanguage.Checked

open Std MatrixAutomaton

variable {n : NFA} {q : State} {i : Nat} {a : Symbol}

/-! ## Cells and indices -/

structure Cell where
  symbol : Symbol
  row : Nat
  column : Nat

/-- The cell that an edge sets. There are matrices for the symbols of the alphabet only. -/
def cell (n : NFA) (e : Edge Label) : Except Fault Cell := do
  let symbol ← require .missingKey (e.label.filter n.alphabet.contains)
  let row ← require .missingKey (stateIndices n)[e.source]?
  let column ← require .missingKey (stateIndices n)[e.target]?
  return { symbol, row, column }

def matrixOf (size : Nat) (cells : List Cell) (a : Symbol) : BoolMatrix where
  rows := ((List.range size).map fun i => cells.filterMap fun c =>
    if c.symbol = a ∧ c.row = i then some c.column else none).toArray

def ofSymbolMoves (n : NFA) : Except Fault MatrixAutomaton := do
  let size := n.states.length
  let cells ← n.edges.mapM (cell n)
  let start ← require .missingKey (stateIndices n)[n.start]?
  let final ← n.final.mapM fun q => require .missingKey (stateIndices n)[q]?
  return {
    matrices := n.alphabet.map fun a => (a, matrixOf size cells a)
    start := ((List.range size).map fun i => i == start).toArray
    final := ((List.range size).map final.contains).toArray }

def ofNFA (n : NFA) : Except Fault MatrixAutomaton := do
  if n.hasSilentMoves then ofSymbolMoves (← withoutSilent n) else ofSymbolMoves n

def indexOf (n : NFA) (q : State) : Nat := (stateIndices n).getD q 0

/-- The cell of an edge all of whose parts are there. -/
def cellOf (n : NFA) (e : Edge Label) : Cell :=
  ⟨e.label.getD "", indexOf n e.source, indexOf n e.target⟩

section

variable (h : n.IsValid)

include h

theorem getElem?_stateIndices_of_mem (hq : q ∈ n.states) :
    (stateIndices n)[q]? = some (indexOf n q) := by
  obtain ⟨i, hi⟩ := List.mem_iff_getElem?.1 hq
  have hindex := (getElem?_stateIndices h).2 hi
  rw [indexOf, TreeMap.getD_eq_getD_getElem?, hindex]
  rfl

theorem indexOf_eq_iff (hq : q ∈ n.states) : indexOf n q = i ↔ n.states[i]? = some q := by
  rw [← getElem?_stateIndices h, getElem?_stateIndices_of_mem h hq, Option.some.injEq]

theorem indexOf_inj {r : State} (hq : q ∈ n.states) (hr : r ∈ n.states) :
    indexOf n q = indexOf n r ↔ q = r := by
  have hget := (indexOf_eq_iff h hr).1 rfl
  rw [indexOf_eq_iff h hq, hget, Option.some.injEq, eq_comm]

/-- Going through the states is going through their indices. -/
theorem map_states_eq {β : Type} {f : State → β} {g : Nat → β}
    (hfg : ∀ q ∈ n.states, f q = g (indexOf n q)) :
    n.states.map f = (List.range n.states.length).map g := by
  refine List.ext_getElem (by simp) fun i hi _ => ?_
  rw [List.length_map] at hi
  have hindex := (indexOf_eq_iff h (List.getElem_mem hi)).2 (List.getElem?_eq_getElem hi)
  rw [List.getElem_map, List.getElem_map, List.getElem_range, hfg _ (List.getElem_mem hi), hindex]

theorem cell_eq_ok (hs : n.hasSilentMoves = false) {e : Edge Label} (he : e ∈ n.edges) :
    cell n e = .ok (cellOf n e) := by
  obtain ⟨a, ha⟩ := Option.ne_none_iff_exists'.1 (NFA.label_ne_none hs he)
  have hsymbol : e.label.filter n.alphabet.contains = some a := by
    simp [ha, h.label_mem e he a ha]
  rw [cell, hsymbol, getElem?_stateIndices_of_mem h (h.source_mem e he),
    getElem?_stateIndices_of_mem h (h.target_mem e he)]
  simp [cellOf, ha]

/-- The cells in the row of a state are set by the edges that leave it. -/
theorem row_eq (hs : n.hasSilentMoves = false) (hq : q ∈ n.states) :
    ((n.outgoing.values q).filterMap fun x =>
      if x.1 = some a then (stateIndices n)[x.2]? else none) =
      (n.edges.map (cellOf n)).filterMap fun c =>
        if c.symbol = a ∧ c.row = indexOf n q then some c.column else none := by
  classical
  rw [Automaton.outgoing, Grouping.values_ofPairs, List.filterMap_map, List.filterMap_filterMap,
    List.filterMap_map]
  refine List.filterMap_congr fun e he => ?_
  obtain ⟨b, hb⟩ := Option.ne_none_iff_exists'.1 (NFA.label_ne_none hs he)
  have hrow : (cellOf n e).row = indexOf n q ↔ e.source = q := indexOf_inj h (h.source_mem e he) hq
  have hcolumn := getElem?_stateIndices_of_mem h (h.target_mem e he)
  have hsymbol : (cellOf n e).symbol = b := by simp [cellOf, hb]
  simp only [Function.comp_apply, hrow, hsymbol]
  by_cases hsource : e.source = q
  · by_cases hlabel : b = a
    · simp [hsource, hb, hlabel, hcolumn, cellOf]
    · simp [hsource, hb, hlabel]
  · simp [hsource]

theorem matrixOf_eq (hs : n.hasSilentMoves = false) :
    matrixOf n.states.length (n.edges.map (cellOf n)) a =
      symbolMatrix n n.outgoing (stateIndices n) a := by
  rw [matrixOf, symbolMatrix]
  congr 2
  exact (map_states_eq h fun q hq => row_eq h hs hq).symm

theorem ofSymbolMoves_eq_ok (hs : n.hasSilentMoves = false) :
    ofSymbolMoves n = .ok (MatrixAutomaton.ofSymbolMoves n) := by
  classical
  have hcells := mapM_eq_ok fun e (he : e ∈ n.edges) => cell_eq_ok h hs he
  have hfinal := mapM_eq_ok fun q (hq : q ∈ n.final) => show
      require .missingKey (stateIndices n)[q]? = .ok (indexOf n q) by
    rw [getElem?_stateIndices_of_mem h (h.final_mem q hq)]
    rfl
  have hstartMask : (n.states.map fun q => q == n.start) =
      (List.range n.states.length).map fun i => i == indexOf n n.start :=
    map_states_eq h fun q hq => by
      rw [Bool.eq_iff_iff, beq_iff_eq, beq_iff_eq, indexOf_inj h hq h.start_mem]
  have hfinalMask : n.states.map (TreeSet.ofList n.final compare).contains =
      (List.range n.states.length).map (n.final.map (indexOf n)).contains :=
    map_states_eq h fun q hq => by
      rw [Bool.eq_iff_iff, TreeSet.contains_ofList, List.contains_iff_mem, List.contains_iff_mem,
        List.mem_map]
      constructor
      · exact fun hmem => ⟨q, hmem, rfl⟩
      · rintro ⟨r, hr, hqr⟩
        exact (indexOf_inj h (h.final_mem r hr) hq).1 hqr ▸ hr
  simp only [ofSymbolMoves, hcells, hfinal, getElem?_stateIndices_of_mem h h.start_mem,
    require_some, ok_bind]
  simp only [MatrixAutomaton.ofSymbolMoves, hstartMask, hfinalMask, matrixOf_eq h hs]
  rfl

theorem ofNFA_eq_ok : ofNFA n = .ok (MatrixAutomaton.ofNFA n) := by
  rw [ofNFA, MatrixAutomaton.ofNFA]
  split
  · rw [withoutSilent_eq_ok h]
    exact ofSymbolMoves_eq_ok (NFA.withoutSilent_isValid h) (NFA.withoutSilent_hasSilentMoves h)
  · rename_i hs
    exact ofSymbolMoves_eq_ok h (Bool.eq_false_iff.2 hs)

end

/-! ## Products and equivalence -/

def product (rule : Bool → Bool → Bool) (a b : MatrixAutomaton) : Except Fault MatrixAutomaton := do
  let shared := (a.matrices.map Prod.fst).filter (b.matrices.map Prod.fst).contains
  let matrices ← shared.mapM fun s => do
    let m ← require .missingKey (a.matrices.lookup s)
    let m' ← require .missingKey (b.matrices.lookup s)
    return (s, m.kronecker m')
  return {
    matrices
    start := Mask.outer and a.start b.start
    final := Mask.outer rule a.final b.final }

def isEquivalent (d e : DFA) : Except Fault Bool := do
  let alphabet := Ascending.ofList (d.alphabet ++ e.alphabet)
  let a ← ofNFA (← complete d alphabet).toNFA
  let b ← ofNFA (← complete e alphabet).toNFA
  return (← product xor a b).isEmpty

def matrixAt (m : MatrixAutomaton) (s : Symbol) : BoolMatrix := (m.matrices.lookup s).getD ⟨#[]⟩

section

variable {a b : MatrixAutomaton} {s : Symbol}

theorem lookup_eq_matrixAt (hs : s ∈ a.matrices.map Prod.fst) :
    a.matrices.lookup s = some (matrixAt a s) := by
  rw [matrixAt]
  cases hlookup : a.matrices.lookup s with
  | some m => rfl
  | none =>
    obtain ⟨x, hx, rfl⟩ := List.mem_map.1 hs
    simpa using List.lookup_eq_none_iff.1 hlookup x hx

/-- The shared symbols with the products of their matrices. -/
theorem map_shared_eq (ha : a.IsProper) (rule : Bool → Bool → Bool) :
    ((a.matrices.map Prod.fst).filter (b.matrices.map Prod.fst).contains).map
      (fun s => (s, (matrixAt a s).kronecker (matrixAt b s))) =
        (MatrixAutomaton.product rule a b).matrices := by
  rw [List.filter_map, List.map_map, MatrixAutomaton.product, ← List.filterMap_eq_map,
    List.filterMap_filter]
  refine List.filterMap_congr fun x hx => ?_
  have hleft : matrixAt a x.1 = x.2 := by
    rw [matrixAt, ha.lookup_iff.2 hx]
    rfl
  simp only [Function.comp_apply, List.contains_iff_mem, hleft]
  by_cases hmem : x.1 ∈ b.matrices.map Prod.fst
  · rw [if_pos hmem, lookup_eq_matrixAt hmem]
    rfl
  · have hnone : b.matrices.lookup x.1 = none := List.lookup_eq_none_iff.2 fun y hy => by
      simpa using fun heq => hmem (List.mem_map.2 ⟨y, hy, heq.symm⟩)
    rw [if_neg hmem, hnone]
    rfl

theorem product_eq_ok (ha : a.IsProper) (rule : Bool → Bool → Bool) :
    product rule a b = .ok (.product rule a b) := by
  rw [product, mapM_eq_ok (g := fun s => (s, (matrixAt a s).kronecker (matrixAt b s)))]
  · rw [map_shared_eq ha rule]
    rfl
  · intro s hs
    obtain ⟨hleft, hright⟩ := List.mem_filter.1 hs
    rw [lookup_eq_matrixAt hleft, lookup_eq_matrixAt (List.contains_iff_mem.1 hright)]
    rfl

end

theorem complete_congr {d : DFA} {alphabet alphabet' : List Symbol}
    (h : ∀ a, a ∈ d.alphabet ++ alphabet ↔ a ∈ d.alphabet ++ alphabet') :
    d.complete alphabet = d.complete alphabet' := by
  rw [DFA.complete, DFA.complete, Ascending.ofList_congr h]

theorem isEquivalent_eq_ok {d e : DFA} (hd : d.IsValid) (he : e.IsValid) :
    isEquivalent d e = .ok (d.isEquivalent e) := by
  -- each has its own alphabet already, so the other one's is what completion adds
  have hleft : d.complete (Ascending.ofList (d.alphabet ++ e.alphabet)) = d.complete e.alphabet :=
    complete_congr fun a => by simp only [List.mem_append, Ascending.mem_ofList]; tauto
  have hright : e.complete (Ascending.ofList (d.alphabet ++ e.alphabet)) = e.complete d.alphabet :=
    complete_congr fun a => by simp only [List.mem_append, Ascending.mem_ofList]; tauto
  have hdc : (d.complete e.alphabet).toNFA.IsValid := DFA.toNFA_isValid (DFA.complete_isValid hd)
  have hec : (e.complete d.alphabet).toNFA.IsValid := DFA.toNFA_isValid (DFA.complete_isValid he)
  simp only [isEquivalent, complete_eq_ok hd, complete_eq_ok he, hleft, hright, ok_bind,
    ofNFA_eq_ok hdc, ofNFA_eq_ok hec, product_eq_ok (ofNFA_isProper hdc)]
  rfl

end RegularLanguage.Checked
