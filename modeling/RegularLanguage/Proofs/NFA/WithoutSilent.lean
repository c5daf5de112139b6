import RegularLanguage.Proofs.Automaton.Basic
import RegularLanguage.Proofs.NFA.Simulation
import RegularLanguage.Proofs.Search.Grouping
/-!
# Removing silent moves

A symbol with silent moves before and after it becomes one move (`mem_withoutSilent_edges`). So
words lead where they led before, except for the empty word, which no longer leads away from the
start (`withoutSilent_path_iff`). The start becomes final if silent moves led to a final state, so
the accepted words are the same (`withoutSilent_accepts`).
-/

namespace RegularLanguage.NFA

open Std

variable {n : NFA} {p q r : State} {a : Symbol} {l : Label} {w : Word}

/-! ## The search for the states that are kept -/

/-- Where each symbol leads from a state, as it is looked up. -/
def targetsOf (n : NFA) (q : State) : List (Symbol × List State) :=
  (TreeMap.ofList (n.states.map fun q => (q, n.symbolTargets n.moves q)) compare).getD q []

def nextStates (n : NFA) (q : State) : List State := (n.targetsOf q).flatMap Prod.snd

def kept (n : NFA) : List State := reach n.nextStates n.states.length [n.start]

theorem withoutSilent_eq_ofParts (n : NFA) : n.withoutSilent =
    ofParts n.kept n.start
      (n.kept.filter fun q => (n.closure [q]).any (TreeSet.ofList n.final compare).contains)
      (n.kept.flatMap fun q => (n.targetsOf q).flatMap fun x => x.2.map fun r => ⟨q, some x.1, r⟩)
      n.alphabet := rfl

/-- The paths of a symbol and silent moves around it, as the simulation follows them. -/
theorem mem_step_closure : r ∈ n.step (n.closure [q]) (some a) ↔ n.Path q [a] r := by
  rw [mem_step, path_cons_iff]
  simp

/-- A path that spells a symbol leaves a state of the automaton. -/
theorem Path.source_mem (h : n.IsValid) (hw : n.Path p w q) (hne : w ≠ []) : p ∈ n.states := by
  cases hw with
  | nil => exact absurd rfl hne
  | silent he _ => exact h.source_mem _ he
  | symbol he _ => exact h.source_mem _ he

section

variable (h : n.IsValid)

include h

theorem targetsOf_eq : n.targetsOf q =
    if q ∈ n.states then n.symbolTargets n.moves q else [] := by
  rw [targetsOf, TreeMap.getD_eq_getD_getElem?, getElem?_ofList_map_mk h.states_ascending.nodup]
  by_cases hq : q ∈ n.states <;> simp [hq]

/-- What is looked up are the paths that spell a symbol. -/
theorem exists_mem_targetsOf_iff :
    (∃ rs, (a, rs) ∈ n.targetsOf q ∧ r ∈ rs) ↔ n.Path q [a] r := by
  have hcell : ∀ rs, (a, rs) ∈ n.symbolTargets n.moves q ↔
      a ∈ n.alphabet ∧ n.step (n.closure [q]) (some a) = rs := fun _ => mem_map_mk
  rw [targetsOf_eq h]
  constructor
  · rintro ⟨rs, hrs, hr⟩
    by_cases hq : q ∈ n.states
    · rw [if_pos hq] at hrs
      obtain ⟨-, rfl⟩ := (hcell rs).1 hrs
      exact mem_step_closure.1 hr
    · simp [hq] at hrs
  · intro hr
    obtain ⟨s, t, -, he, -⟩ := path_cons_iff.1 hr
    rw [if_pos (hr.source_mem h (by simp))]
    exact ⟨_, (hcell _).2 ⟨h.label_mem _ he a rfl, rfl⟩, mem_step_closure.2 hr⟩

theorem mem_nextStates : r ∈ n.nextStates q ↔ ∃ a, n.Path q [a] r := by
  simp only [nextStates, List.mem_flatMap, Prod.exists, exists_mem_targetsOf_iff h]

/-- The search goes along paths, symbol by symbol. -/
theorem leads_nextStates_iff :
    Leads n.nextStates p q ↔ p = q ∨ ∃ w : Word, w ≠ [] ∧ n.Path p w q := by
  constructor
  · intro hpq
    induction hpq with
    | refl => exact .inl rfl
    | step hr _ ih =>
      obtain ⟨a, hr⟩ := (mem_nextStates h).1 hr
      rcases ih with rfl | ⟨w, -, hw⟩
      · exact .inr ⟨[a], by simp, hr⟩
      · exact .inr ⟨a :: w, by simp, hr.append hw⟩
  · rintro (rfl | ⟨w, hne, hw⟩)
    · exact .refl p
    · induction w generalizing p with
      | nil => exact absurd rfl hne
      | cons a w ih =>
        by_cases hnil : w = []
        · subst hnil
          exact .step ((mem_nextStates h).2 ⟨a, hw⟩) (.refl q)
        · obtain ⟨r, hr, hw⟩ := path_cons_iff_exists.1 hw
          exact .step ((mem_nextStates h).2 ⟨a, hr⟩) (ih hnil hw)

/-- The start is kept, and so is every state to which some word leads by a symbol. -/
theorem mem_kept : q ∈ n.kept ↔ n.start = q ∨ ∃ w : Word, w ≠ [] ∧ n.Path n.start w q := by
  have hnodes : ∀ p, ∀ q ∈ n.nextStates p, q ∈ n.states := by
    intro p q hq
    obtain ⟨a, hpath⟩ := (mem_nextStates h).1 hq
    exact hpath.mem_states h (hpath.source_mem h (by simp))
  rw [kept, mem_reach hnodes (Nat.le_refl _)]
  simp only [List.mem_singleton, exists_eq_left, leads_nextStates_iff h]

/-! ## The parts of the automaton -/

theorem mem_withoutSilent_states :
    q ∈ n.withoutSilent.states ↔ n.start = q ∨ ∃ w : Word, w ≠ [] ∧ n.Path n.start w q :=
  Ascending.mem_ofList.trans (mem_kept h)

omit h in
/-- A state becomes final if silent moves lead from it to a final state. -/
theorem mem_withoutSilent_final : q ∈ n.withoutSilent.final ↔
    q ∈ n.withoutSilent.states ∧ ∃ r ∈ n.final, n.Path q [] r := by
  classical
  have hstates : q ∈ n.withoutSilent.states ↔ q ∈ n.kept := Ascending.mem_ofList
  rw [hstates, withoutSilent_eq_ofParts]
  simp [ofParts, Automaton.ofParts, TreeSet.contains_ofList, and_comm]

/-- A move is under a symbol, with silent moves before and after it. -/
theorem mem_withoutSilent_edges : ⟨p, l, r⟩ ∈ n.withoutSilent.edges ↔
    p ∈ n.withoutSilent.states ∧ ∃ a, l = some a ∧ n.Path p [a] r := by
  have hstates : p ∈ n.withoutSilent.states ↔ p ∈ n.kept := Ascending.mem_ofList
  rw [hstates, withoutSilent_eq_ofParts]
  simp only [ofParts, Automaton.ofParts, Ascending.mem_ofList, List.mem_flatMap, List.mem_map,
    ← exists_mem_targetsOf_iff h]
  constructor
  · rintro ⟨p, hp, ⟨a, rs⟩, hrs, r, hr, he⟩
    cases he
    exact ⟨hp, a, rfl, rs, hrs, hr⟩
  · rintro ⟨hp, a, rfl, rs, hrs, hr⟩
    exact ⟨p, hp, (a, rs), hrs, r, hr, rfl⟩

theorem mem_withoutSilent_alphabet : a ∈ n.withoutSilent.alphabet ↔ a ∈ n.alphabet := by
  refine mem_ofParts_alphabet n.withoutSilent_eq_ofParts.symm ?_
  rintro ⟨p, l, q⟩ he b rfl
  obtain ⟨-, b', hb', hpath⟩ := (mem_withoutSilent_edges h).1 he
  obtain ⟨s, t, -, hst, -⟩ := path_cons_iff.1 hpath
  exact h.label_mem _ hst b hb'.symm

theorem withoutSilent_isValid : n.withoutSilent.IsValid := by
  refine ofParts_isValid_of_mem n.withoutSilent_eq_ofParts.symm
    ((mem_withoutSilent_states h).2 (.inl rfl)) (fun q hq => (mem_withoutSilent_final.1 hq).1)
    fun ⟨p, l, q⟩ he => ?_
  obtain ⟨hp, a, -, hq⟩ := (mem_withoutSilent_edges h).1 he
  refine ⟨hp, (mem_withoutSilent_states h).2 (.inr ?_)⟩
  rcases (mem_withoutSilent_states h).1 hp with rfl | ⟨w, -, hw⟩
  · exact ⟨[a], by simp, hq⟩
  · exact ⟨w ++ [a], by simp, hw.append hq⟩

theorem withoutSilent_hasSilentMoves : n.withoutSilent.hasSilentMoves = false := by
  refine List.any_eq_false.2 fun ⟨p, l, q⟩ he => ?_
  obtain ⟨-, a, rfl, -⟩ := (mem_withoutSilent_edges h).1 he
  simp

/-! ## Words -/

/-- The paths that spell a single symbol are kept as edges. -/
theorem withoutSilent_path_singleton_iff (hp : p ∈ n.withoutSilent.states) :
    n.withoutSilent.Path p [a] q ↔ n.Path p [a] q := by
  rw [path_singleton_iff (withoutSilent_hasSilentMoves h), mem_withoutSilent_edges h]
  simp [hp]

/-- Paths are kept if they spell at least one symbol. -/
theorem withoutSilent_path_iff (hp : p ∈ n.withoutSilent.states) (hne : w ≠ []) :
    n.withoutSilent.Path p w q ↔ n.Path p w q := by
  induction w generalizing p with
  | nil => exact absurd rfl hne
  | cons a w ih =>
    by_cases hnil : w = []
    · subst hnil
      exact withoutSilent_path_singleton_iff h hp
    · rw [path_cons_iff_exists, path_cons_iff_exists]
      refine exists_congr fun r => ?_
      rw [withoutSilent_path_singleton_iff h hp]
      refine and_congr_right fun hr => ih ?_ hnil
      have hkept := (withoutSilent_path_singleton_iff h hp).2 hr
      exact hkept.mem_states (withoutSilent_isValid h) hp

/-- Every state that is kept is reached. -/
theorem exists_withoutSilent_path (hq : q ∈ n.withoutSilent.states) :
    ∃ w, n.withoutSilent.Path n.start w q := by
  rcases (mem_withoutSilent_states h).1 hq with rfl | ⟨w, hne, hw⟩
  · exact ⟨[], .nil n.start⟩
  · exact ⟨w, (withoutSilent_path_iff h (withoutSilent_isValid h).start_mem hne).2 hw⟩

/-- After a word that has a symbol the automaton is in the same states as before. -/
theorem withoutSilent_run (hne : w ≠ []) :
    n.withoutSilent.run (w.map some) = n.run (w.map some) := by
  refine Ascending.ext (ascending_run _ _) (ascending_run _ _) fun q => ?_
  rw [mem_run_iff_path, mem_run_iff_path]
  exact withoutSilent_path_iff h (withoutSilent_isValid h).start_mem hne

theorem Path.of_withoutSilent (hp : p ∈ n.withoutSilent.states)
    (hw : n.withoutSilent.Path p w q) : n.Path p w q := by
  by_cases hnil : w = []
  · subst hnil
    obtain rfl := (path_nil_iff (withoutSilent_hasSilentMoves h)).1 hw
    exact .nil p
  · exact (withoutSilent_path_iff h hp hnil).1 hw

theorem withoutSilent_accepts : n.withoutSilent.accepts w = n.accepts w := by
  have hstart : n.start ∈ n.withoutSilent.states := (withoutSilent_isValid h).start_mem
  rw [Bool.eq_iff_iff, accepts_iff_exists_path, accepts_iff_exists_path]
  simp only [mem_withoutSilent_final]
  constructor
  · rintro ⟨q, hq, -, r, hr, hqr⟩
    refine ⟨r, ?_, hr⟩
    have hpath := (Path.of_withoutSilent h hstart hq).append hqr
    rwa [List.append_nil] at hpath
  · rintro ⟨r, hpath, hr⟩
    by_cases hnil : w = []
    · -- the start has become final on behalf of the state that silent moves lead to
      subst hnil
      exact ⟨n.start, .nil n.start, hstart, r, hr, hpath⟩
    · have hkept := (withoutSilent_path_iff h hstart hnil).2 hpath
      exact ⟨r, hkept, hkept.mem_states (withoutSilent_isValid h) hstart, r, hr, .nil r⟩

/-! ## Nothing to remove -/

section

variable (hs : n.hasSilentMoves = false) (hreached : ∀ q ∈ n.states, ∃ w, n.Path n.start w q)

include hs hreached

theorem mem_withoutSilent_states_of_reached : q ∈ n.withoutSilent.states ↔ q ∈ n.states := by
  rw [mem_withoutSilent_states h]
  constructor
  · rintro (rfl | ⟨w, -, hw⟩)
    · exact h.start_mem
    · exact hw.mem_states h h.start_mem
  · intro hq
    obtain ⟨w, hw⟩ := hreached q hq
    by_cases hnil : w = []
    · subst hnil
      exact .inl ((path_nil_iff hs).1 hw)
    · exact .inr ⟨w, hnil, hw⟩

theorem mem_withoutSilent_final_of_reached : q ∈ n.withoutSilent.final ↔ q ∈ n.final := by
  rw [mem_withoutSilent_final, mem_withoutSilent_states_of_reached h hs hreached]
  simp only [path_nil_iff hs, exists_eq_right']
  exact and_iff_right_of_imp (h.final_mem q)

theorem mem_withoutSilent_edges_of_reached :
    ⟨p, l, q⟩ ∈ n.withoutSilent.edges ↔ ⟨p, l, q⟩ ∈ n.edges := by
  rw [mem_withoutSilent_edges h, mem_withoutSilent_states_of_reached h hs hreached]
  simp only [path_singleton_iff hs]
  constructor
  · rintro ⟨-, a, rfl, he⟩
    exact he
  · intro he
    obtain ⟨a, rfl⟩ := Option.ne_none_iff_exists'.1 (label_ne_none hs he)
    exact ⟨h.source_mem _ he, a, rfl, he⟩

/-- Where no move is silent and every state is reached, the automaton is left as it is. -/
theorem withoutSilent_eq_self : n.withoutSilent = n := by
  have hequal : n.withoutSilent.toAutomaton = n.toAutomaton :=
    (withoutSilent_isValid h).toIsProper.ext h.toIsProper
      (fun _ => mem_withoutSilent_states_of_reached h hs hreached) rfl
      (fun _ => mem_withoutSilent_final_of_reached h hs hreached)
      (fun _ _ _ => mem_withoutSilent_edges_of_reached h hs hreached)
      fun _ => mem_withoutSilent_alphabet h
  exact congrArg NFA.mk hequal

end

end

/-- Removing silent moves leaves no silent move and no state that is not reached. A word that has a
symbol leads to the same states as before, and every word is accepted as before. There is nothing
left to remove a second time. -/
theorem withoutSilent_simulates (n : NFA) (h : n.IsValid) :
    let m := n.withoutSilent
    (∀ e ∈ m.edges, e.label ≠ none) ∧ (∀ q ∈ m.states, ∃ w, m.Path m.start w q) ∧
      (∀ w : Word, w ≠ [] → m.run (w.map some) = n.run (w.map some)) ∧
      (∀ w, m.accepts w = n.accepts w) ∧ m.withoutSilent = m := by
  intro m
  have hs : m.hasSilentMoves = false := withoutSilent_hasSilentMoves h
  have hreached : ∀ q ∈ m.states, ∃ w, m.Path m.start w q := fun q => exists_withoutSilent_path h
  exact ⟨fun e => label_ne_none hs, hreached, fun w => withoutSilent_run h,
    fun w => withoutSilent_accepts h, withoutSilent_eq_self (withoutSilent_isValid h) hs hreached⟩

/-- An automaton whose start lies on a cycle of silent moves and whose final state is entered by a
silent move only. -/
def roundabout : NFA :=
  ofParts [4, 1, -6, 8, 11] 4 [8]
    [⟨4, none, 1⟩, ⟨1, none, 4⟩, ⟨1, some "a", -6⟩, ⟨-6, none, 8⟩, ⟨11, some "b", 4⟩] ["c"]

theorem roundabout_isValid : roundabout.IsValid :=
  ofParts_isValid (by decide) (by decide) (by decide)

theorem withoutSilent_simulates_roundabout : roundabout.IsValid ∧
    let m := roundabout.withoutSilent
    (∀ e ∈ m.edges, e.label ≠ none) ∧ (∀ q ∈ m.states, ∃ w, m.Path m.start w q) ∧
      (∀ w : Word, w ≠ [] → m.run (w.map some) = roundabout.run (w.map some)) ∧
      (∀ w, m.accepts w = roundabout.accepts w) ∧ m.withoutSilent = m :=
  ⟨roundabout_isValid, withoutSilent_simulates roundabout roundabout_isValid⟩

example : roundabout.withoutSilent =
    ofParts [-6, 4, 8] 4 [-6, 8] [⟨4, some "a", -6⟩, ⟨4, some "a", 8⟩] ["a", "b", "c"] := by decide

end RegularLanguage.NFA
