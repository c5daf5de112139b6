import RegularLanguage.Proofs.DFA.ToNFA
import RegularLanguage.Proofs.Matrix.Automaton
import RegularLanguage.Proofs.NFA.WithoutSilent
/-!
# Matrices of an automaton

The matrices of an automaton without silent moves have its edges as their entries, states being
given by their indices. So a word leads to the indices of the states to which it leads in the
automaton (`MatrixAutomaton.ofSymbolMoves_reaches_iff`), and the matrices accept what the automaton
accepts (`MatrixAutomaton.ofNFA_accepts_eq`).
-/

namespace RegularLanguage

open Std

namespace MatrixAutomaton

variable {n : NFA} {i j : Nat} {a : Symbol} {q : State} {w : Word}

theorem ofSymbolMoves_start_iff :
    (ofSymbolMoves n).start.flag i = true ↔ n.states[i]? = some n.start := by
  simp [ofSymbolMoves, Mask.flag_map_toArray]

theorem ofSymbolMoves_final_iff :
    (ofSymbolMoves n).final.flag i = true ↔ ∃ q, n.states[i]? = some q ∧ q ∈ n.final := by
  classical
  simp [ofSymbolMoves, Mask.flag_map_toArray, TreeSet.contains_ofList]

section

variable (h : n.IsValid)

include h

theorem getElem?_stateIndices : (stateIndices n)[q]? = some i ↔ n.states[i]? = some q := by
  have hkeys : (n.states.mapIdx fun i q => (q, i)).Pairwise fun x y => x.1 ≠ y.1 := by
    refine List.pairwise_iff_getElem.2 fun i j hi hj hij => ?_
    rw [List.getElem_mapIdx, List.getElem_mapIdx]
    exact List.pairwise_iff_getElem.1 h.states_ascending.nodup i j _ _ hij
  rw [stateIndices, getElem?_ofList_eq_some_iff_mem hkeys, List.mem_mapIdx]
  constructor
  · rintro ⟨i', hi, heq⟩
    cases heq
    exact List.getElem?_eq_getElem hi
  · intro hi
    obtain ⟨hlt, rfl⟩ := List.getElem?_eq_some_iff.1 hi
    exact ⟨i, hlt, rfl⟩

/-- An entry of the matrix of a symbol is an edge. -/
theorem mem_row_symbolMatrix : j ∈ (symbolMatrix n n.outgoing (stateIndices n) a).row i ↔
    ∃ q r, n.states[i]? = some q ∧ n.states[j]? = some r ∧ ⟨q, some a, r⟩ ∈ n.edges := by
  simp only [BoolMatrix.mem_row_iff, symbolMatrix, List.getElem?_toArray, List.getElem?_map,
    Option.map_eq_some_iff]
  constructor
  · rintro ⟨-, ⟨q, hq, rfl⟩, hj⟩
    obtain ⟨⟨l, r⟩, hout, hj⟩ := List.mem_filterMap.1 hj
    split at hj
    · rename_i hl
      subst hl
      exact ⟨q, r, hq, (getElem?_stateIndices h).1 hj, Automaton.mem_outgoing.1 hout⟩
    · cases hj
  · rintro ⟨q, r, hq, hr, he⟩
    refine ⟨_, ⟨q, hq, rfl⟩, List.mem_filterMap.2 ⟨(some a, r), Automaton.mem_outgoing.2 he, ?_⟩⟩
    simpa using (getElem?_stateIndices h).2 hr

theorem ofSymbolMoves_isProper : (ofSymbolMoves n).IsProper := by
  have hsize : (ofSymbolMoves n).size = n.states.length := by simp [size, ofSymbolMoves]
  refine ⟨by simp [size, ofSymbolMoves], fun x hx => ?_, ?_⟩
  · obtain ⟨a, -, rfl⟩ := List.mem_map.1 hx
    refine ⟨by simp [hsize, BoolMatrix.size, symbolMatrix], fun i j hj => ?_⟩
    obtain ⟨-, r, -, hr, -⟩ := (mem_row_symbolMatrix h).1 hj
    exact hsize ▸ (List.getElem?_eq_some_iff.1 hr).1
  · exact List.pairwise_map.2 h.alphabet_ascending.nodup

theorem ofSymbolMoves_moves_iff : (ofSymbolMoves n).Moves a i j ↔
    ∃ q r, n.states[i]? = some q ∧ n.states[j]? = some r ∧ ⟨q, some a, r⟩ ∈ n.edges := by
  rw [← mem_row_symbolMatrix h, Moves]
  simp only [(ofSymbolMoves_isProper h).lookup_iff]
  constructor
  · rintro ⟨matrix, hmatrix, hj⟩
    obtain ⟨b, -, heq⟩ := List.mem_map.1 hmatrix
    cases heq
    exact hj
  · intro hj
    obtain ⟨q, r, -, -, he⟩ := (mem_row_symbolMatrix h).1 hj
    exact ⟨_, List.mem_map.2 ⟨a, h.label_mem _ he a rfl, rfl⟩, hj⟩

theorem ofNFA_isProper : (ofNFA n).IsProper := by
  unfold ofNFA
  split
  · exact ofSymbolMoves_isProper (NFA.withoutSilent_isValid h)
  · exact ofSymbolMoves_isProper h

variable (hs : n.hasSilentMoves = false)

include hs

/-- A word leads to the indices of the states to which it leads in the automaton. -/
theorem ofSymbolMoves_reaches_iff : (ofSymbolMoves n).Reaches w j ↔
    ∃ r, n.states[j]? = some r ∧ n.Path n.start w r := by
  induction w using List.reverseRecOn generalizing j with
  | nil =>
    simp only [reaches_nil, ofSymbolMoves_start_iff, NFA.path_nil_iff hs, exists_eq_right']
  | append_singleton w a ih =>
    simp only [reaches_concat, ih, ofSymbolMoves_moves_iff h, NFA.path_concat_iff hs]
    constructor
    · rintro ⟨i, ⟨q, hq, hpath⟩, q', r, hq', hr, he⟩
      obtain rfl := Option.some.inj (hq.symm.trans hq')
      exact ⟨r, hr, q, hpath, he⟩
    · rintro ⟨r, hr, q, hpath, he⟩
      obtain ⟨i, hi⟩ := List.getElem?_of_mem (h.source_mem _ he)
      exact ⟨i, ⟨q, hi, hpath⟩, q, r, hi, hr, he⟩

/-- A word leads to a final index exactly when it leads to a final state. -/
theorem ofSymbolMoves_accepts : (ofSymbolMoves n).accepts w = n.accepts w := by
  rw [Bool.eq_iff_iff, accepts_iff_reaches, NFA.accepts_iff_exists_path]
  simp only [ofSymbolMoves_reaches_iff h hs, ofSymbolMoves_final_iff]
  constructor
  · rintro ⟨i, ⟨q, hq, hpath⟩, q', hq', hfinal⟩
    obtain rfl := Option.some.inj (hq.symm.trans hq')
    exact ⟨q, hpath, hfinal⟩
  · rintro ⟨q, hpath, hfinal⟩
    obtain ⟨i, hi⟩ := List.getElem?_of_mem (h.final_mem q hfinal)
    exact ⟨i, ⟨q, hi, hpath⟩, q, hi, hfinal⟩

end

/-- Whether silent moves have to be removed first or not, the matrices accept the same words. -/
theorem ofNFA_accepts (h : n.IsValid) : (ofNFA n).accepts w = n.accepts w := by
  unfold ofNFA
  split
  · rw [ofSymbolMoves_accepts (NFA.withoutSilent_isValid h) (NFA.withoutSilent_hasSilentMoves h)]
    exact NFA.withoutSilent_accepts h
  · rename_i hs
    exact ofSymbolMoves_accepts h (eq_false_of_ne_true hs)

/-- The matrices of an automaton, deterministic or not, accept the words that it accepts. -/
theorem ofNFA_accepts_eq :
    (∀ n : NFA, n.IsValid → ∀ w, (ofNFA n).accepts w = n.accepts w) ∧
      ∀ d : DFA, d.IsValid → ∀ w, (ofNFA d.toNFA).accepts w = d.accepts w := by
  refine ⟨fun n h w => ofNFA_accepts h, fun d h w => ?_⟩
  rw [ofNFA_accepts (DFA.toNFA_isValid h)]
  exact DFA.toNFA_accepts h

/-- A partial automaton with a symbol that no move is under. -/
def lasso : DFA := .ofParts [7, -3, 12] 7 [-3, 12] [⟨7, "a", -3⟩, ⟨-3, "bc", -3⟩] ["d"] []

theorem lasso_isValid : lasso.IsValid :=
  DFA.ofParts_isValid (by decide) (by decide) (by decide) (by decide)

theorem ofNFA_accepts_eq_roundabout_lasso :
    NFA.roundabout.IsValid ∧ lasso.IsValid ∧ (ofNFA NFA.roundabout).accepts ["a"] = true ∧
      (ofNFA lasso.toNFA).accepts ["a", "bc", "d"] = false ∧
      (∀ w, (ofNFA NFA.roundabout).accepts w = NFA.roundabout.accepts w) ∧
      ∀ w, (ofNFA lasso.toNFA).accepts w = lasso.accepts w := by
  obtain ⟨hnfa, hdfa⟩ := ofNFA_accepts_eq
  exact ⟨NFA.roundabout_isValid, lasso_isValid, by decide +kernel, by decide +kernel,
    hnfa NFA.roundabout NFA.roundabout_isValid, hdfa lasso lasso_isValid⟩

end MatrixAutomaton

end RegularLanguage
