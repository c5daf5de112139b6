import Mathlib.Data.Set.Function
import RegularLanguage.Proofs.DFA.Correspondence
/-!
# The smallest automaton is unique up to renaming

Minimal automata are isomorphic exactly when they agree on words and on runs
(`IsMinimal.isomorphic_iff`). As soon as some word is accepted, the accepted words decide this. An
automaton that accepts nothing is left with its start, which keeps the moves to itself: so then
isomorphism hangs on these moves (`isomorphic_minimize_iff`).
-/

namespace RegularLanguage.DFA

variable {d e : DFA} {f : State → State} {q r : State} {a : Symbol} {w : Word}

/-- The states of the one automaton are renamed one-to-one to all states of the other. The start
becomes the start, final states become final and others do not, and a symbol leads from the new
name of a state to the new name of the state that it leads to, or nowhere if it leads nowhere. -/
structure IsIsomorphism (f : State → State) (d e : DFA) : Prop where
  bijOn : Set.BijOn f {q | q ∈ d.states} {r | r ∈ e.states}
  start_eq : f d.start = e.start
  final_iff : ∀ q ∈ d.states, (q ∈ d.final ↔ f q ∈ e.final)
  delta_eq : ∀ q ∈ d.states, ∀ a, e.delta (f q) a = (d.delta q a).map f

def Isomorphic (d e : DFA) : Prop := ∃ f, IsIsomorphism f d e

/-! ## Isomorphic automata agree -/

theorem IsIsomorphism.runFrom_eq (h : IsIsomorphism f d e) (hd : d.IsValid) (hq : q ∈ d.states) :
    e.runFrom (f q) w = (d.runFrom q w).map f := by
  induction w generalizing q with
  | nil => rfl
  | cons a w ih =>
    rw [runFrom_cons, runFrom_cons, h.delta_eq q hq]
    cases hr : d.delta q a with
    | none => rfl
    | some r => exact ih (hd.mem_of_delta hr).2.2

theorem IsIsomorphism.acceptsFrom_eq (h : IsIsomorphism f d e) (hd : d.IsValid)
    (hq : q ∈ d.states) : e.acceptsFrom (f q) w = d.acceptsFrom q w := by
  rw [acceptsFrom, acceptsFrom, h.runFrom_eq hd hq]
  cases hr : d.runFrom q w with
  | none => rfl
  | some r =>
    rw [Option.map_some, Option.any_some, Option.any_some, Bool.eq_iff_iff,
      List.contains_iff_mem, List.contains_iff_mem]
    exact (h.final_iff r (hd.mem_of_runFrom hq hr)).symm

theorem IsIsomorphism.agrees (h : IsIsomorphism f d e) (hd : d.IsValid) : d.Agrees e := by
  refine ⟨fun w => ?_, fun w => ?_⟩
  · rw [accepts, accepts, ← h.start_eq, h.acceptsFrom_eq hd hd.start_mem]
  · rw [← h.start_eq, h.runFrom_eq hd hd.start_mem]
    cases d.runFrom d.start w <;> simp

/-! ## Automata that agree are isomorphic -/

/-- In automata that agree, where every state is reached and has one correspondent, taking states to
their correspondents is a renaming. -/
theorem Agrees.exists_isIsomorphism (h : d.Agrees e) (hd : d.IsValid) (he : e.IsValid)
    (hreach : ∀ q ∈ d.states, ∃ w, d.runFrom d.start w = some q)
    (hreach' : ∀ r ∈ e.states, ∃ w, e.runFrom e.start w = some r)
    (hunique : ∀ q r r', Corresponds d e q r → Corresponds d e q r' → r = r')
    (hunique' : ∀ q q' r, Corresponds d e q r → Corresponds d e q' r → q = q') :
    ∃ f, IsIsomorphism f d e ∧ ∀ q ∈ d.states, Corresponds d e q (f q) := by
  have hex : ∀ q ∈ d.states, ∃ r, Corresponds d e q r :=
    fun q hq => h.exists_corresponds (hreach q hq)
  choose! f hf using hex
  have hrenamed : ∀ {q r}, Corresponds d e q r → f q = r := fun hqr =>
    hunique _ _ _ (hf _ (hqr.mem hd)) hqr
  refine ⟨f, ⟨⟨fun q hq => ?_, fun q hq q' hq' hqq' => ?_, fun r hr => ?_⟩, ?_, fun q hq => ?_,
    fun q hq a => ?_⟩, hf⟩
  · exact (hf q hq).symm.mem he
  · exact hunique' q q' (f q) (hf q hq) (hqq' ▸ hf q' hq')
  · obtain ⟨q, hrq⟩ := h.symm.exists_corresponds (hreach' r hr)
    exact ⟨q, hrq.symm.mem hd, hrenamed hrq.symm⟩
  · exact hrenamed corresponds_start
  · exact (hf q hq).final_iff h.accepts_eq
  · have hrel := (hf q hq).delta_rel h a
    generalize d.delta q a = x, e.delta (f q) a = y at hrel
    cases hrel with
    | none => rfl
    | some hst => exact congrArg some (hrenamed hst).symm

/-- In minimal automata, corresponding states are told by the words that they accept. -/
theorem Agrees.isomorphic (h : d.Agrees e) (hd : d.IsMinimal) (he : e.IsMinimal) :
    Isomorphic d e := by
  obtain ⟨f, hf, -⟩ := h.exists_isIsomorphism hd.toIsValid he.toIsValid hd.reachable he.reachable
    (fun _ _ _ hr hr' => hr.unique h.accepts_eq he hr')
    fun _ _ _ hq hq' => hq.symm.unique h.symm.accepts_eq hd hq'.symm
  exact ⟨f, hf⟩

theorem IsMinimal.isomorphic_iff (hd : d.IsMinimal) (he : e.IsMinimal) :
    Isomorphic d e ↔ d.Agrees e :=
  ⟨fun ⟨_, h⟩ => h.agrees hd.toIsValid, fun h => h.isomorphic hd he⟩

/-! ## Automata that accept nothing -/

section

variable (hd : d.IsValid) (hnone : ∀ w, d.accepts w = false)

include hd hnone

/-- Only the start is left, as every other state that is left would accept something. -/
theorem eq_start_of_mem_trim_states (hr : r ∈ d.trim.states) : r = d.start := by
  obtain ⟨⟨u, hu⟩, hstart | ⟨v, hv⟩⟩ := (mem_trim_states hd).1 hr
  · exact hstart
  · rw [← acceptsFrom_append hu] at hv
    exact absurd hv (Bool.eq_false_iff.1 (hnone _))

theorem trim_delta_start_eq_some_iff :
    d.trim.delta d.start a = some r ↔ r = d.start ∧ d.delta d.start a = some d.start := by
  have hstart : d.start ∈ d.trim.states := (trim_isValid hd).start_mem
  rw [trim_delta_eq_some_iff hd]
  constructor
  · rintro ⟨hr, -, hmem⟩
    obtain rfl := eq_start_of_mem_trim_states hd hnone hmem
    exact ⟨rfl, hr⟩
  · rintro ⟨rfl, hr⟩
    exact ⟨hr, hstart, hstart⟩

/-- Of all moves the minimized automaton keeps those from the start to itself. -/
theorem minimize_delta_start_eq_some_iff : d.minimize.delta d.minimize.start a = some r ↔
    r = d.minimize.start ∧ d.delta d.start a = some d.start := by
  obtain ⟨p, hp, hs, -, hmin⟩ := exists_minimize_eq hd
  have ht := trim_isValid hd
  have hstart : p.state? d.trim.start = some d.minimize.start := by
    rw [hmin]
    exact quotient_start ht hp
  have hdelta : d.minimize.delta d.minimize.start a = (d.trim.delta d.start a).bind p.state? := by
    rw [hmin] at hstart ⊢
    exact quotient_delta ht hp hs hstart
  rw [hdelta, Option.bind_eq_some_iff]
  constructor
  · rintro ⟨s, hs, hr⟩
    obtain ⟨rfl, hloop⟩ := (trim_delta_start_eq_some_iff hd hnone).1 hs
    exact ⟨Option.some.inj (hr.symm.trans hstart), hloop⟩
  · rintro ⟨hr, hloop⟩
    rw [hr]
    exact ⟨d.start, (trim_delta_start_eq_some_iff hd hnone).2 ⟨rfl, hloop⟩, hstart⟩

/-- The minimized automaton runs on the words that run round at the start. -/
theorem exists_minimize_runFrom_iff : (∃ r, d.minimize.runFrom d.minimize.start w = some r) ↔
    ∀ a ∈ w, d.delta d.start a = some d.start := by
  induction w with
  | nil => exact iff_of_true ⟨_, rfl⟩ (by simp)
  | cons a w ih =>
    rw [List.forall_mem_cons, ← ih]
    simp only [runFrom_cons, Option.bind_eq_some_iff,
      minimize_delta_start_eq_some_iff hd hnone]
    constructor
    · rintro ⟨r, s, ⟨hs, hloop⟩, hr⟩
      rw [hs] at hr
      exact ⟨hloop, r, hr⟩
    · rintro ⟨hloop, r, hr⟩
      exact ⟨r, _, ⟨rfl, hloop⟩, hr⟩

end

/-! ## Uniqueness -/

theorem minimize_isLive_start (hd : d.IsValid) (hw : d.accepts w = true) :
    d.minimize.IsLive d.minimize.start :=
  ⟨w, (minimize_accepts hd).trans hw⟩

section

variable (hd : d.IsValid) (he : e.IsValid) (h : ∀ w, d.accepts w = e.accepts w)

include hd he h

theorem minimize_accepts_eq (w : Word) : d.minimize.accepts w = e.minimize.accepts w := by
  rw [minimize_accepts hd, minimize_accepts he, h]

theorem isomorphic_minimize_of_accepts (hw : d.accepts w = true) :
    Isomorphic d.minimize e.minimize := by
  have hmind := minimize_isMinimal hd
  have hmine := minimize_isMinimal he
  refine Agrees.isomorphic ?_ hmind hmine
  exact MovesAreLive.agrees (minimize_accepts_eq hd he h)
    (hmind.toIsTrim.movesAreLive (minimize_isLive_start hd hw))
    (hmine.toIsTrim.movesAreLive (minimize_isLive_start he ((h w).symm.trans hw)))

theorem isomorphic_minimize_iff_of_none (hnone : ∀ w, d.accepts w = false) :
    Isomorphic d.minimize e.minimize ↔
      ∀ a, d.delta d.start a = some d.start ↔ e.delta e.start a = some e.start := by
  have hnone' : ∀ w, e.accepts w = false := fun w => (h w).symm.trans (hnone w)
  rw [(minimize_isMinimal hd).isomorphic_iff (minimize_isMinimal he)]
  constructor
  · intro hagrees a
    have hrun := hagrees.run_iff [a]
    simpa [exists_minimize_runFrom_iff hd hnone, exists_minimize_runFrom_iff he hnone'] using hrun
  · refine fun hloops => ⟨minimize_accepts_eq hd he h, fun w => ?_⟩
    rw [exists_minimize_runFrom_iff hd hnone, exists_minimize_runFrom_iff he hnone']
    simp only [hloops]

end

/-- Automata that accept the same words are minimized to isomorphic ones if there is such a word.
If there is none, this is so exactly when the same symbols lead from start to start. -/
theorem isomorphic_minimize_iff (d e : DFA) (hd : d.IsValid) (he : e.IsValid)
    (h : ∀ w, d.accepts w = e.accepts w) : Isomorphic d.minimize e.minimize ↔
      (∃ w, d.accepts w = true) ∨
        ∀ a, d.delta d.start a = some d.start ↔ e.delta e.start a = some e.start := by
  by_cases hsome : ∃ w, d.accepts w = true
  · obtain ⟨w, hw⟩ := hsome
    exact iff_of_true (isomorphic_minimize_of_accepts hd he h hw) (.inl ⟨w, hw⟩)
  · have hnone : ∀ w, d.accepts w = false := fun w => Bool.eq_false_iff.2 fun hw => hsome ⟨w, hw⟩
    rw [or_iff_right hsome]
    exact isomorphic_minimize_iff_of_none hd he h hnone

/-- An automaton with moves to a state that accepts nothing, and the same one without. -/
theorem isomorphic_minimize_iff_forked : forked.IsValid ∧ forked.trim.IsValid ∧
    (∀ w, forked.accepts w = forked.trim.accepts w) ∧
      (Isomorphic forked.minimize forked.trim.minimize ↔ (∃ w, forked.accepts w = true) ∨
        ∀ a, forked.delta forked.start a = some forked.start ↔
          forked.trim.delta forked.trim.start a = some forked.trim.start) := by
  have h : ∀ w, forked.accepts w = forked.trim.accepts w :=
    fun w => (trim_accepts forked_isValid).symm
  exact ⟨forked_isValid, trim_isValid forked_isValid, h,
    isomorphic_minimize_iff _ _ forked_isValid (trim_isValid forked_isValid) h⟩

/-- A single state that is left and entered under no symbol. -/
def motionless (alphabet : List Symbol) : DFA := ofParts [0] 0 [] [] alphabet []

/-- Where no word is accepted, a loop at the start outlasts minimizing. -/
theorem not_isomorphic_minimize_emptyLanguage :
    (emptyLanguage ["a"]).IsValid ∧ (motionless ["a"]).IsValid ∧
      (emptyLanguage ["a"]).alphabet = (motionless ["a"]).alphabet ∧
      (∀ w, (emptyLanguage ["a"]).accepts w = (motionless ["a"]).accepts w) ∧
      ¬ Isomorphic (emptyLanguage ["a"]).minimize (motionless ["a"]).minimize := by
  have hloop : (emptyLanguage ["a"]).IsValid :=
    ofParts_isValid (by decide) (by decide) (by decide) (by decide)
  have hidle : (motionless ["a"]).IsValid :=
    ofParts_isValid (by decide) (by decide) (by decide) (by decide)
  have hnone : ∀ w, (emptyLanguage ["a"]).accepts w = false := accepts_eq_false_of_final rfl
  have hnone' : ∀ w, (motionless ["a"]).accepts w = false := accepts_eq_false_of_final rfl
  have h : ∀ w, (emptyLanguage ["a"]).accepts w = (motionless ["a"]).accepts w :=
    fun w => (hnone w).trans (hnone' w).symm
  refine ⟨hloop, hidle, rfl, h, ?_⟩
  rw [isomorphic_minimize_iff_of_none hloop hidle h hnone]
  exact fun hloops => absurd ((hloops "a").1 (by decide)) (by decide)

end RegularLanguage.DFA
