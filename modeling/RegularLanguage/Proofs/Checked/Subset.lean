import RegularLanguage.Proofs.Checked.Basic
import RegularLanguage.Proofs.DFA.Subset
/-!
# Guarded subset construction

The sets that have been found wait in a queue for being looked at. Each of them is looked up under
its number, and the number of a set is looked up under the set. Those that wait are always the ones
from some number on (`Search.waitingFrom`), so the queue can be told from the numbering, and the
search ends with nothing waiting (`Search.explore_waitingFrom`). No guard fails
(`determinize_eq_ok`).

| here | `relang` |
| --- | --- |
| `Search.number` | `get_state` of `determinize` |
| `Search.explore` | the loop over `frontier` |
-/

namespace RegularLanguage.Checked

open Std

/-- A search and the numbers of the nodes that wait for being looked at. -/
structure Search (κ α : Type) [Ord κ] extends Discovery κ α where
  waiting : List Nat

namespace Search

variable {κ α : Type} [Ord κ]

/-- The number of a node. A node that is new waits from now on. -/
def number (s : Search κ α) (k : κ) : Except Fault (Nat × Search κ α) := do
  let s := match s.found.number? k with
    | some _ => s
    | none => { s with found := s.found.add k, waiting := s.waiting ++ [s.found.size] }
  let i ← require .missingKey (s.found.number? k)
  return (i, s)

def addArc (i : Nat) (s : Search κ α) (arc : α × κ) : Except Fault (Search κ α) := do
  let (j, s) ← s.number arc.2
  return { s with arcs := (i, arc.1, j) :: s.arcs }

/-- Looks at the nodes that wait, until none does. -/
def explore (successors : κ → List (α × κ)) : Nat → Search κ α → Except Fault (Search κ α)
  | 0, s => if s.waiting.isEmpty then return s else throw .unfinished
  | fuel + 1, s =>
    match s.waiting with
    | [] => return s
    | i :: waiting => do
      let k ← require .missingKey (s.found.key? i)
      let s ← (successors k).foldlM (addArc i) { s with waiting }
      explore successors fuel s

/-- The search of a graph of at most `bound` nodes, and the number of its start. -/
def ofStart (bound : Nat) (successors : κ → List (α × κ)) (start : κ) :
    Except Fault (Nat × Search κ α) := do
  let (i, s) ← number ⟨⟨{}, []⟩, []⟩ start
  return (i, ← explore successors bound s)

/-! ## What waits -/

/-- What has been found, the nodes from number `i` on still waiting. -/
def waitingFrom (d : Discovery κ α) (i : Nat) : Search κ α :=
  ⟨d, List.range' i (d.found.size - i)⟩

variable [TransOrd κ] [LawfulEqOrd κ] {d : Discovery κ α} {i p : Nat}
  {successors : κ → List (α × κ)} {start : κ} {nodes : List κ}

theorem number_waitingFrom (hproper : d.found.IsProper) (hi : i ≤ d.found.size) (k : κ) :
    (waitingFrom d i).number k =
      .ok ((d.found.intern k).1, waitingFrom ⟨(d.found.intern k).2, d.arcs⟩ i) := by
  have hfound : (waitingFrom d i).found = d.found := rfl
  rcases hproper.intern_cases k with ⟨j, hj, heq⟩ | ⟨hnew, heq⟩
  · have hnumber := (hproper k j).2 hj
    simp only [number, hfound, hnumber, heq]
    rfl
  · have hwaiting : List.range' i (d.found.size - i) ++ [d.found.size] =
        List.range' i (d.found.size + 1 - i) := by
      rw [Nat.succ_sub hi, List.range'_concat]
      congr 2
      omega
    simp only [number, hfound, hnew, heq, Numbering.number?_add_self, require_some]
    simp only [waitingFrom, hwaiting, Numbering.size_add]
    rfl

theorem addArc_waitingFrom (hproper : d.found.IsProper) (hi : i ≤ d.found.size) (arc : α × κ) :
    addArc p (waitingFrom d i) arc = .ok (waitingFrom (Discovery.addArc p d arc) i) := by
  rw [addArc, number_waitingFrom hproper hi]
  rfl

theorem foldlM_addArc_waitingFrom (hproper : d.found.IsProper) (hi : i ≤ d.found.size)
    (moves : List (α × κ)) :
    moves.foldlM (addArc p) (waitingFrom d i) =
        .ok (waitingFrom (moves.foldl (Discovery.addArc p) d) i) ∧
      i ≤ (moves.foldl (Discovery.addArc p) d).found.size := by
  induction moves generalizing d with
  | nil => exact ⟨rfl, hi⟩
  | cons m moves ih =>
    obtain ⟨hproper', hsize⟩ := hproper.intern m.2
    rw [List.foldlM_cons, addArc_waitingFrom hproper hi]
    exact ih hproper' (Nat.le_trans hi hsize)

/-- With room for all nodes, the search ends with nothing waiting. -/
theorem explore_waitingFrom {fuel : Nat} [Ord α]
    (hasc : ∀ k, (successors k).Pairwise fun m m' => compare m.1 m'.1 = .lt)
    (hstart : start ∈ nodes) (hnodes : ∀ k ∈ nodes, ∀ m ∈ successors k, m.2 ∈ nodes)
    (hfuel : nodes.length ≤ i + fuel) (hi : i ≤ d.found.size)
    (h : d.IsSound successors start) (hdone : d.IsDone successors i) :
    explore successors fuel (waitingFrom d i) =
      .ok ⟨Discovery.explore successors fuel i d, []⟩ := by
  induction fuel generalizing i d with
  | zero =>
    -- all nodes have been looked at, so none is left to wait
    have hnone : d.found.size - i = 0 := by
      have := h.size_le hstart hnodes
      omega
    simp only [explore, Discovery.explore, waitingFrom, hnone]
    rfl
  | succ fuel ih =>
    rw [explore, Discovery.explore]
    cases hk : d.found.key? i with
    | none =>
      have hnone : d.found.size - i = 0 := Nat.sub_eq_zero_of_le <| Nat.le_of_not_lt fun hlt => by
        obtain ⟨k, hk'⟩ := Numbering.exists_key?_of_lt_size hlt
        rw [hk] at hk'
        cases hk'
      simp only [waitingFrom, hnone]
      rfl
    | some k =>
      have hlt := Numbering.lt_size_of_key? hk
      have hwaiting : List.range' i (d.found.size - i) =
          i :: List.range' (i + 1) (d.found.size - (i + 1)) := by
        rw [← List.range'_succ]
        congr 1
        omega
      obtain ⟨hdone', hsound'⟩ := hdone.step h hk (hasc k)
      obtain ⟨hlooked, hsize⟩ := foldlM_addArc_waitingFrom (p := i) h.proper hlt (successors k)
      simp only [waitingFrom, hwaiting, hk, require_some]
      change (do
        let s ← (successors k).foldlM (addArc i) (waitingFrom d (i + 1))
        explore successors fuel s) = _
      rw [hlooked]
      exact ih (by omega) hsize hsound' hdone'

/-- The search from a start ends with what the discovery finds, and with nothing waiting. -/
theorem ofStart_eq_ok [Ord α] (successors : κ → List (α × κ)) {bound : Nat}
    (hasc : ∀ k, (successors k).Pairwise fun m m' => compare m.1 m'.1 = .lt)
    (hstart : start ∈ nodes) (hnodes : ∀ k ∈ nodes, ∀ m ∈ successors k, m.2 ∈ nodes)
    (hbound : nodes.length ≤ bound) : ofStart bound successors start =
      .ok (0, ⟨Discovery.ofStart bound successors start, []⟩) := by
  obtain ⟨hsound, hdone⟩ := Discovery.isSound_start successors start
  have hnone : ({} : Numbering κ).number? start = none := by simp [Numbering.number?]
  have hnumber : number (⟨⟨{}, []⟩, []⟩ : Search κ α) start =
      .ok (0, waitingFrom ⟨(Numbering.intern {} start).2, []⟩ 0) := by
    have hzero : (Numbering.intern {} start).1 = 0 := by
      rw [Numbering.intern_of_none hnone]
      rfl
    rw [← hzero]
    exact number_waitingFrom (d := ⟨{}, []⟩) Numbering.isProper_empty (Nat.zero_le _) start
  have hfuel : nodes.length ≤ 0 + bound := by omega
  have hexplore := explore_waitingFrom hasc hstart hnodes hfuel (Nat.zero_le _) hsound hdone
  rw [ofStart, hnumber]
  change (do return (0, ← explore successors bound _)) = _
  rw [hexplore]
  rfl

end Search

/-! ## The deterministic automaton -/

def determinize (n : NFA) (alphabet : List Symbol) (complete : Bool) : Except Fault DFA := do
  let symbols := Ascending.ofList (n.alphabet ++ alphabet)
  let m := n.moves
  let (start, s) ← Search.ofStart (Nat.pow 2 n.states.length) (NFA.subsetMoves m symbols complete)
    (m.closure [n.start])
  let subsets := s.found.keys.toList.mapIdx fun i qs => ((i : State), qs)
  let final := (subsets.filter fun (_, qs) => Ascending.meets qs n.final).map Prod.fst
  let edges := s.arcs.map fun (i, a, j) => ⟨(i : State), a, (j : State)⟩
  buildDFA (subsets.map Prod.fst) start final edges symbols subsets

theorem determinize_eq_ok {n : NFA} (h : n.IsValid) (alphabet : List Symbol) (complete : Bool) :
    determinize n alphabet complete = .ok (n.determinize alphabet complete) := by
  have hsearch := Search.ofStart_eq_ok
    (NFA.subsetMoves n.moves (Ascending.ofList (n.alphabet ++ alphabet)) complete)
    (fun _ => NFA.pairwise_subsetMoves (Ascending.ascending_ofList _))
    (NFA.closure_start_mem_sublists h) (fun _ _ _ => NFA.mem_sublists_of_mem_subsetMoves h)
    n.length_sublists_states
  rw [NFA.closure] at hsearch
  simp only [determinize, hsearch]
  exact buildDFA_of_isValid (NFA.determinize_isValid h alphabet complete)

end RegularLanguage.Checked
