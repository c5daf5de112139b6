import Mathlib.Data.List.Induction
import RegularLanguage.Proofs.DFA.Run
/-!
# Completion

Completing an automaton keeps its moves and lets those that are missing lead to a new state, which
is not final and cannot be left. So every state accepts what it accepted before
(`complete_acceptsFrom`), and exactly the words over the known symbols have a run
(`exists_complete_runFrom_iff`).
-/

namespace RegularLanguage.DFA

open Std

variable {d : DFA} {q r : State} {a : Symbol} {w : Word} {alphabet : List Symbol}

/-- Every state has a move under each symbol of both alphabets. -/
def IsTotal (d : DFA) (alphabet : List Symbol) : Prop :=
  ∀ q ∈ d.states, ∀ a, a ∈ d.alphabet ∨ a ∈ alphabet → ∃ r, d.delta q a = some r

theorem isCompleteOver_eq_true_iff {symbols : List Symbol} : d.isCompleteOver symbols = true ↔
    ∀ q ∈ d.states, ∀ a ∈ symbols, ∃ r, d.delta q a = some r := by
  simp only [isCompleteOver, List.all_eq_true, Option.isSome_iff_exists]
  exact Iff.rfl

theorem isCompleteOver_iff :
    d.isCompleteOver (Ascending.ofList (d.alphabet ++ alphabet)) = true ↔ d.IsTotal alphabet := by
  simp only [isCompleteOver_eq_true_iff, Ascending.mem_ofList, List.mem_append]
  exact Iff.rfl

/-! ## The new state -/

theorem le_foldl_max {qs : List State} : q ≤ qs.foldl max q ∧ ∀ r ∈ qs, r ≤ qs.foldl max q := by
  induction qs generalizing q with
  | nil => simp
  | cons s qs ih =>
    obtain ⟨hacc, hqs⟩ := ih (q := max q s)
    rw [List.foldl_cons, List.forall_mem_cons]
    exact ⟨Int.le_trans (Int.le_max_left q s) hacc, Int.le_trans (Int.le_max_right q s) hacc, hqs⟩

theorem lt_freshState (hq : q ∈ d.states) : q < d.freshState :=
  Int.lt_add_one_of_le (le_foldl_max.2 q hq)

theorem freshState_not_mem : d.freshState ∉ d.states :=
  fun h => Int.lt_irrefl _ (lt_freshState h)

/-! ## The parts of the completed automaton -/

def sinkStates (d : DFA) (alphabet : List Symbol) : List State :=
  if d.isCompleteOver (Ascending.ofList (d.alphabet ++ alphabet)) then [] else [d.freshState]

def sinkMoves (d : DFA) (alphabet : List Symbol) : List (Edge Symbol) :=
  let symbols := Ascending.ofList (d.alphabet ++ alphabet)
  if d.isCompleteOver symbols then []
  else (d.states ++ [d.freshState]).flatMap fun q => symbols.filterMap fun a =>
    if (d.delta q a).isSome then none else some ⟨q, a, d.freshState⟩

theorem mem_sinkStates :
    q ∈ d.sinkStates alphabet ↔ ¬ d.IsTotal alphabet ∧ q = d.freshState := by
  rw [sinkStates, ← isCompleteOver_iff]
  split <;> simp_all

theorem mem_sinkMoves : ⟨q, a, r⟩ ∈ d.sinkMoves alphabet ↔ ¬ d.IsTotal alphabet ∧
    (q ∈ d.states ∨ q = d.freshState) ∧ (a ∈ d.alphabet ∨ a ∈ alphabet) ∧ d.delta q a = none ∧
      r = d.freshState := by
  rw [sinkMoves, ← isCompleteOver_iff]
  split
  · rename_i htotal
    simp [htotal]
  · rename_i htotal
    rw [and_iff_right htotal]
    simp only [List.mem_flatMap, List.mem_filterMap, List.mem_append, List.mem_singleton,
      Ascending.mem_ofList]
    constructor
    · rintro ⟨q, hq, a, ha, he⟩
      split at he
      · cases he
      · rename_i hnone
        cases he
        exact ⟨hq, ha, by simpa using hnone, rfl⟩
    · rintro ⟨hq, ha, hnone, rfl⟩
      exact ⟨q, hq, a, ha, by simp [hnone]⟩

/-- Completing adds states and moves, which are none if no move is missing. -/
theorem complete_eq_ofParts : d.complete alphabet =
    ofParts (d.states ++ d.sinkStates alphabet) d.start d.final (d.edges ++ d.sinkMoves alphabet)
      (Ascending.ofList (d.alphabet ++ alphabet)) d.subsets := by
  by_cases h : d.isCompleteOver (Ascending.ofList (d.alphabet ++ alphabet)) = true
  · rw [complete, if_pos h, sinkStates, if_pos h, sinkMoves, if_pos h, List.append_nil,
      List.append_nil]
  · rw [complete, if_neg h, sinkStates, if_neg h, sinkMoves, if_neg h]
    rfl

theorem mem_complete_states : q ∈ (d.complete alphabet).states ↔
    q ∈ d.states ∨ ¬ d.IsTotal alphabet ∧ q = d.freshState := by
  simp [complete_eq_ofParts, ofParts, Automaton.ofParts, mem_sinkStates]

theorem complete_start : (d.complete alphabet).start = d.start := by
  rw [complete_eq_ofParts]
  rfl

theorem mem_complete_final : q ∈ (d.complete alphabet).final ↔ q ∈ d.final := by
  rw [complete_eq_ofParts]
  exact Ascending.mem_ofList

theorem complete_subsets : (d.complete alphabet).subsets = arrangeSubsets d.subsets := by
  rw [complete_eq_ofParts]
  rfl

theorem mem_complete_edges : ⟨q, a, r⟩ ∈ (d.complete alphabet).edges ↔
    ⟨q, a, r⟩ ∈ d.edges ∨ ⟨q, a, r⟩ ∈ d.sinkMoves alphabet := by
  rw [complete_eq_ofParts]
  exact Ascending.mem_ofList.trans List.mem_append

section

variable (h : d.IsValid)

include h

theorem mem_complete_alphabet :
    a ∈ (d.complete alphabet).alphabet ↔ a ∈ d.alphabet ∨ a ∈ alphabet := by
  rw [complete_eq_ofParts]
  simp only [ofParts, Automaton.ofParts, Ascending.mem_ofList, List.mem_append, List.mem_map]
  refine or_iff_right_of_imp ?_
  rintro ⟨e, he | he, rfl⟩
  · exact .inl (h.label_mem e he)
  · exact (mem_sinkMoves.1 he).2.2.1

theorem freshState_delta : d.delta d.freshState a = none := by
  cases hr : d.delta d.freshState a with
  | none => rfl
  | some r => exact absurd (h.mem_of_delta hr).1 freshState_not_mem

theorem complete_isValid : (d.complete alphabet).IsValid := by
  rw [complete_eq_ofParts]
  refine ofParts_isValid (List.mem_append_left _ h.start_mem)
    (fun q hq => List.mem_append_left _ (h.final_mem q hq)) (fun e he => ?_)
    fun e he f hf hsource hlabel => ?_
  · rcases List.mem_append.1 he with he | he
    · exact ⟨List.mem_append_left _ (h.source_mem e he), List.mem_append_left _ (h.target_mem e he)⟩
    · obtain ⟨htotal, hsource, -, -, htarget⟩ := mem_sinkMoves.1 he
      exact ⟨List.mem_append.2 (hsource.imp_right fun hq => mem_sinkStates.2 ⟨htotal, hq⟩),
        List.mem_append_right _ (mem_sinkStates.2 ⟨htotal, htarget⟩)⟩
  · -- a move is missing only where there is none
    have hclash : ∀ e ∈ d.edges, ∀ f ∈ d.sinkMoves alphabet, e.source = f.source →
        e.label ≠ f.label := by
      intro e he f hf hsource hlabel
      obtain ⟨-, -, -, hnone, -⟩ := mem_sinkMoves.1 hf
      rw [← hsource, ← hlabel, h.delta_eq_some_iff.2 he] at hnone
      cases hnone
    rcases List.mem_append.1 he with he | he <;> rcases List.mem_append.1 hf with hf | hf
    · exact h.target_unique e he f hf hsource hlabel
    · exact absurd hlabel (hclash e he f hf hsource)
    · exact absurd hlabel.symm (hclash f hf e he hsource.symm)
    · obtain ⟨-, -, -, -, htarget⟩ := mem_sinkMoves.1 he
      obtain ⟨-, -, -, -, htarget'⟩ := mem_sinkMoves.1 hf
      exact htarget.trans htarget'.symm

/-! ## Moves and runs -/

theorem complete_delta_eq_some_iff : (d.complete alphabet).delta q a = some r ↔
    d.delta q a = some r ∨ ⟨q, a, r⟩ ∈ d.sinkMoves alphabet := by
  rw [(complete_isValid h).delta_eq_some_iff, h.delta_eq_some_iff, mem_complete_edges]

/-- Every state of the completed automaton has a move under each known symbol, and under no
other. -/
theorem exists_complete_delta_iff (hq : q ∈ (d.complete alphabet).states) :
    (∃ r, (d.complete alphabet).delta q a = some r) ↔ a ∈ d.alphabet ∨ a ∈ alphabet := by
  constructor
  · rintro ⟨r, hr⟩
    exact (mem_complete_alphabet h).1 ((complete_isValid h).mem_of_delta hr).2.1
  · intro ha
    cases hr : d.delta q a with
    | some r => exact ⟨r, (complete_delta_eq_some_iff h).2 (.inl hr)⟩
    | none =>
      have ht : ¬ d.IsTotal alphabet := by
        intro ht
        have hold := (mem_complete_states.1 hq).resolve_right fun hnew => hnew.1 ht
        obtain ⟨r, hr'⟩ := ht q hold a ha
        rw [hr] at hr'
        cases hr'
      have hmem := (mem_complete_states.1 hq).imp_right And.right
      exact ⟨_, (complete_delta_eq_some_iff h).2 (.inr (mem_sinkMoves.2 ⟨ht, hmem, ha, hr, rfl⟩))⟩

/-- A move is old, or it is one that was missing. -/
theorem complete_delta_cases (hr : (d.complete alphabet).delta q a = some r) :
    d.delta q a = some r ∨ d.delta q a = none ∧ r = d.freshState := by
  refine ((complete_delta_eq_some_iff h).1 hr).imp_right fun hnew => ?_
  obtain ⟨-, -, -, hnone, htarget⟩ := mem_sinkMoves.1 hnew
  exact ⟨hnone, htarget⟩

theorem complete_delta_of_eq_none (hq : q ∈ d.states) (ha : a ∈ d.alphabet ∨ a ∈ alphabet)
    (hnone : d.delta q a = none) : (d.complete alphabet).delta q a = some d.freshState := by
  obtain ⟨r, hr⟩ := (exists_complete_delta_iff h (mem_complete_states.2 (.inl hq))).2 ha
  rcases complete_delta_cases h hr with hold | ⟨-, rfl⟩
  · rw [hnone] at hold
    cases hold
  · exact hr

/-- Runs are kept. -/
theorem complete_runFrom_of_eq_some (hr : d.runFrom q w = some r) :
    (d.complete alphabet).runFrom q w = some r := by
  induction w generalizing q with
  | nil => exact hr
  | cons a w ih =>
    obtain ⟨s, hs, hr⟩ := Option.bind_eq_some_iff.1 hr
    rw [runFrom_cons, (complete_delta_eq_some_iff h).2 (.inl hs)]
    exact ih hr

/-- If all states are reached, so is the new one: it is entered where a move was missing. -/
theorem exists_runFrom_of_mem_complete
    (hreach : ∀ q ∈ d.states, ∃ w, d.runFrom d.start w = some q)
    (hr : r ∈ (d.complete alphabet).states) :
    ∃ w, (d.complete alphabet).runFrom (d.complete alphabet).start w = some r := by
  rw [complete_start]
  rcases mem_complete_states.1 hr with hr | ⟨hpartial, rfl⟩
  · obtain ⟨w, hw⟩ := hreach r hr
    exact ⟨w, complete_runFrom_of_eq_some h hw⟩
  · simp only [IsTotal, not_forall, not_exists, ← Option.eq_none_iff_forall_ne_some] at hpartial
    obtain ⟨q, hq, a, ha, hnone⟩ := hpartial
    obtain ⟨w, hw⟩ := hreach q hq
    exact ⟨w ++ [a], runFrom_concat_eq_some_iff.2
      ⟨q, complete_runFrom_of_eq_some h hw, complete_delta_of_eq_none h hq ha hnone⟩⟩

/-- A run of the completed automaton is an old one, or it ends in the new state where there was
none. -/
theorem complete_runFrom_cases (hr : (d.complete alphabet).runFrom q w = some r) :
    d.runFrom q w = some r ∨ d.runFrom q w = none ∧ r = d.freshState := by
  induction w using List.reverseRecOn generalizing r with
  | nil => exact .inl hr
  | append_singleton w a ih =>
    obtain ⟨s, hs, hr⟩ := runFrom_concat_eq_some_iff.1 hr
    rw [runFrom_concat]
    rcases ih hs with hold | ⟨hnone, rfl⟩
    · rw [hold, Option.bind_some]
      exact complete_delta_cases h hr
    · rw [hnone, Option.bind_none]
      -- the new state is not left again
      rcases complete_delta_cases h hr with hleft | ⟨-, hr⟩
      · rw [freshState_delta h] at hleft
        cases hleft
      · exact .inr ⟨rfl, hr⟩

theorem complete_acceptsFrom_freshState :
    (d.complete alphabet).acceptsFrom d.freshState w = false := by
  induction w with
  | nil =>
    rw [← Bool.not_eq_true, acceptsFrom_nil_iff, mem_complete_final]
    exact fun hfinal => freshState_not_mem (h.final_mem _ hfinal)
  | cons a w ih =>
    rw [acceptsFrom_cons]
    cases hr : (d.complete alphabet).delta d.freshState a with
    | none => rfl
    | some r =>
      rcases complete_delta_cases h hr with hold | ⟨-, rfl⟩
      · rw [freshState_delta h] at hold
        cases hold
      · exact ih

/-- What a state accepts does not change. -/
theorem complete_acceptsFrom : (d.complete alphabet).acceptsFrom q w = d.acceptsFrom q w := by
  induction w generalizing q with
  | nil => rw [Bool.eq_iff_iff, acceptsFrom_nil_iff, acceptsFrom_nil_iff, mem_complete_final]
  | cons a w ih =>
    rw [acceptsFrom_cons, acceptsFrom_cons]
    cases hr : (d.complete alphabet).delta q a with
    | none =>
      cases hs : d.delta q a with
      | none => rfl
      | some s =>
        rw [(complete_delta_eq_some_iff h).2 (.inl hs)] at hr
        cases hr
    | some r =>
      rcases complete_delta_cases h hr with hold | ⟨hnone, rfl⟩
      · rw [hold]
        exact ih
      · rw [hnone]
        exact complete_acceptsFrom_freshState h

theorem complete_accepts : (d.complete alphabet).accepts w = d.accepts w := by
  rw [accepts, complete_start, complete_acceptsFrom h, accepts]

/-- A word that is accepted has a run, also in the completed automaton. -/
theorem exists_complete_runFrom_of_accepts (hw : d.accepts w = true) :
    ∃ r, (d.complete alphabet).runFrom d.start w = some r := by
  rw [accepts, ← complete_acceptsFrom h, acceptsFrom_eq_true_iff] at hw
  obtain ⟨r, -, hr⟩ := hw
  exact ⟨r, hr⟩

/-- The completed automaton runs on the words over the known symbols. -/
theorem exists_complete_runFrom_iff (hq : q ∈ (d.complete alphabet).states) :
    (∃ r, (d.complete alphabet).runFrom q w = some r) ↔
      ∀ a ∈ w, a ∈ d.alphabet ∨ a ∈ alphabet := by
  have hv : (d.complete alphabet).IsValid := complete_isValid h
  have htotal : ∀ q ∈ (d.complete alphabet).states, ∀ a ∈ (d.complete alphabet).alphabet,
      ∃ r, (d.complete alphabet).delta q a = some r := by
    intro q hq a ha
    exact (exists_complete_delta_iff h hq).2 ((mem_complete_alphabet h).1 ha)
  simp only [← mem_complete_alphabet h]
  constructor
  · rintro ⟨r, hr⟩
    exact hv.mem_alphabet_of_runFrom hr
  · intro hw
    exact hv.exists_runFrom_of_total htotal hq hw

end

end RegularLanguage.DFA
