import RegularLanguage.Proofs.DFA.Minimal
/-!
# Corresponding states

Automata for one language are walked through side by side: two states correspond when some word
leads to both. Corresponding states accept the same words, so in minimal automata each state has one
correspondent at most. It has one if both automata run on the same words (`Agrees`), and then moves
correspond too (`Corresponds.delta_rel`).
-/

namespace RegularLanguage.DFA

variable {d e : DFA} {q r r' : State} {a : Symbol} {w : Word}

/-- Some word leads to one state in the one automaton and to the other state in the other. -/
def Corresponds (d e : DFA) (q r : State) : Prop :=
  ∃ w, d.runFrom d.start w = some q ∧ e.runFrom e.start w = some r

/-- The automata accept the same words, and words that have a run in one have a run in the other. -/
structure Agrees (d e : DFA) : Prop where
  accepts_eq : ∀ w, d.accepts w = e.accepts w
  run_iff : ∀ w, (∃ q, d.runFrom d.start w = some q) ↔ ∃ r, e.runFrom e.start w = some r

def MovesAreLive (d : DFA) : Prop := ∀ q a r, d.delta q a = some r → d.IsLive r

/-- If some word is accepted from the start, trimming leaves no state that accepts nothing. -/
theorem IsTrim.movesAreLive (h : d.IsTrim) (hstart : d.IsLive d.start) : d.MovesAreLive := by
  intro q a r hr
  by_cases hne : r = d.start
  · exact hne ▸ hstart
  · exact h.live r (h.toIsValid.mem_of_delta hr).2.2 hne

theorem Corresponds.symm (h : Corresponds d e q r) : Corresponds e d r q :=
  h.imp fun _ => And.symm

theorem corresponds_start : Corresponds d e d.start e.start := ⟨[], rfl, rfl⟩

theorem Corresponds.mem (hd : d.IsValid) (hqr : Corresponds d e q r) : q ∈ d.states := by
  obtain ⟨w, hw, -⟩ := hqr
  exact hd.mem_of_runFrom hd.start_mem hw

theorem Agrees.symm (h : d.Agrees e) : e.Agrees d :=
  ⟨fun w => (h.accepts_eq w).symm, fun w => (h.run_iff w).symm⟩

/-! ## What automata for one language have in common -/

section

variable (h : ∀ w, d.accepts w = e.accepts w)

include h

/-- Corresponding states accept the same words. -/
theorem Corresponds.acceptsFrom_eq (hqr : Corresponds d e q r) :
    d.acceptsFrom q w = e.acceptsFrom r w := by
  obtain ⟨u, hq, hr⟩ := hqr
  rw [← acceptsFrom_append hq, ← acceptsFrom_append hr]
  exact h (u ++ w)

theorem Corresponds.final_iff (hqr : Corresponds d e q r) : q ∈ d.final ↔ r ∈ e.final := by
  rw [← acceptsFrom_nil_iff, ← acceptsFrom_nil_iff, hqr.acceptsFrom_eq h]

theorem Corresponds.unique (he : e.IsMinimal) (hr : Corresponds d e q r)
    (hr' : Corresponds d e q r') : r = r' :=
  he.eq_of_alike r r' ⟨hr.symm.mem he.toIsValid, hr'.symm.mem he.toIsValid, fun w => by
    rw [← hr.acceptsFrom_eq h, hr'.acceptsFrom_eq h]⟩

/-- What leads somewhere in the one automaton leads somewhere in the other, as no move is lost on
words that are not accepted however they go on. -/
theorem MovesAreLive.exists_runFrom (hd : d.MovesAreLive) (hq : d.runFrom d.start w = some q) :
    ∃ r, e.runFrom e.start w = some r := by
  rcases List.eq_nil_or_concat' w with rfl | ⟨u, a, rfl⟩
  · exact ⟨e.start, rfl⟩
  · obtain ⟨s, -, hsq⟩ := runFrom_concat_eq_some_iff.1 hq
    obtain ⟨v, hv⟩ := hd s a q hsq
    rw [← acceptsFrom_append hq] at hv
    exact exists_runFrom_of_acceptsFrom ((h _).symm.trans hv)

/-- Without moves that lead nowhere, the accepted words tell which words have runs. -/
theorem MovesAreLive.agrees (hd : d.MovesAreLive) (he : e.MovesAreLive) : d.Agrees e :=
  ⟨h, fun _ => ⟨fun ⟨_, hq⟩ => hd.exists_runFrom h hq,
    fun ⟨_, hr⟩ => he.exists_runFrom (fun w => (h w).symm) hr⟩⟩

end

/-! ## Automata that agree -/

section

variable (h : d.Agrees e)

include h

theorem Agrees.exists_corresponds (hq : ∃ w, d.runFrom d.start w = some q) :
    ∃ r, Corresponds d e q r := by
  obtain ⟨w, hw⟩ := hq
  obtain ⟨r, hr⟩ := (h.run_iff w).1 ⟨q, hw⟩
  exact ⟨r, w, hw, hr⟩

theorem Corresponds.runFrom (he : e.IsMinimal) (hqr : Corresponds d e q r)
    (hw : d.runFrom d.start w = some q) : e.runFrom e.start w = some r := by
  obtain ⟨r', hr'⟩ := (h.run_iff w).1 ⟨q, hw⟩
  rw [hr', Corresponds.unique h.accepts_eq he ⟨w, hw, hr'⟩ hqr]

/-- A symbol leads from corresponding states to corresponding states, or it leads nowhere from
either. -/
theorem Corresponds.delta_rel (hqr : Corresponds d e q r) (a : Symbol) :
    Option.Rel (Corresponds d e) (d.delta q a) (e.delta r a) := by
  obtain ⟨w, hq, hr⟩ := hqr
  have hnext : (∃ s, d.delta q a = some s) ↔ ∃ t, e.delta r a = some t := by
    have hrun := h.run_iff (w ++ [a])
    simpa only [runFrom_concat_eq_some_iff, hq, hr, Option.some.injEq, exists_eq_left'] using hrun
  cases hs : d.delta q a with
  | some s =>
    obtain ⟨t, ht⟩ := hnext.1 ⟨s, hs⟩
    rw [ht]
    exact .some ⟨w ++ [a], runFrom_concat_eq_some_iff.2 ⟨q, hq, hs⟩,
      runFrom_concat_eq_some_iff.2 ⟨r, hr, ht⟩⟩
  | none =>
    cases ht : e.delta r a with
    | none => exact .none
    | some t =>
      obtain ⟨s, hs'⟩ := hnext.2 ⟨t, ht⟩
      rw [hs] at hs'
      cases hs'

end

end RegularLanguage.DFA
