import RegularLanguage.Proofs.Automaton.Basic
/-!
# Running deterministic automata

A run goes on symbol by symbol, so what is accepted from a state depends on the state alone: two
words that lead to one state have the same continuations.
-/

namespace RegularLanguage.DFA

variable {d : DFA} {p q r : State} {a : Symbol} {u v w : Word} {alphabet : List Symbol}

/-- The symbol leads along an edge, the only one of its source and label. -/
theorem IsValid.delta_eq_some_iff (h : d.IsValid) : d.delta q a = some r ↔ ⟨q, a, r⟩ ∈ d.edges := by
  have hsound : ∀ {s}, d.delta q a = some s → ⟨q, a, s⟩ ∈ d.edges := by
    intro s hs
    obtain ⟨xs, ys, hxs, -⟩ := List.lookup_eq_some_iff.1 hs
    exact Automaton.mem_outgoing.1 (hxs ▸ by simp)
  constructor
  · exact hsound
  · intro he
    cases hs : d.delta q a with
    | none =>
      have := List.lookup_eq_none_iff.1 hs (a, r) (Automaton.mem_outgoing.2 he)
      simp at this
    | some s => exact congrArg some (h.target_unique _ (hsound hs) _ he rfl rfl)

theorem IsValid.mem_of_delta (h : d.IsValid) (hr : d.delta q a = some r) :
    q ∈ d.states ∧ a ∈ d.alphabet ∧ r ∈ d.states := by
  have he := h.delta_eq_some_iff.1 hr
  exact ⟨h.source_mem _ he, h.label_mem _ he, h.target_mem _ he⟩

theorem runFrom_cons : d.runFrom q (a :: w) = (d.delta q a).bind fun r => d.runFrom r w := rfl

theorem runFrom_append : d.runFrom q (u ++ v) = (d.runFrom q u).bind fun r => d.runFrom r v := by
  induction u generalizing q with
  | nil => rfl
  | cons a u ih =>
    rw [List.cons_append, runFrom_cons, runFrom_cons, Option.bind_assoc]
    exact congrArg _ (funext fun r => ih)

theorem runFrom_concat : d.runFrom p (w ++ [a]) = (d.runFrom p w).bind fun q => d.delta q a := by
  have hlast : ∀ q, d.runFrom q [a] = d.delta q a := fun _ => Option.bind_fun_some _
  simp only [runFrom_append, hlast]

theorem runFrom_concat_eq_some_iff : d.runFrom p (w ++ [a]) = some r ↔
    ∃ q, d.runFrom p w = some q ∧ d.delta q a = some r := by
  rw [runFrom_concat, Option.bind_eq_some_iff]

theorem IsValid.mem_of_runFrom (h : d.IsValid) (hq : q ∈ d.states) (hr : d.runFrom q w = some r) :
    r ∈ d.states := by
  induction w generalizing q with
  | nil =>
    cases hr
    exact hq
  | cons a w ih =>
    obtain ⟨s, hs, hr⟩ := Option.bind_eq_some_iff.1 hr
    exact ih (h.mem_of_delta hs).2.2 hr

theorem IsValid.mem_alphabet_of_runFrom (h : d.IsValid) (hr : d.runFrom q w = some r) :
    ∀ a ∈ w, a ∈ d.alphabet := by
  induction w generalizing q with
  | nil => simp
  | cons a w ih =>
    obtain ⟨s, hs, hr⟩ := Option.bind_eq_some_iff.1 hr
    exact List.forall_mem_cons.2 ⟨(h.mem_of_delta hs).2.1, ih hr⟩

/-- Where every state has a move under each symbol, there is a run on each word. -/
theorem IsValid.exists_runFrom_of_total (h : d.IsValid)
    (htotal : ∀ q ∈ d.states, ∀ a ∈ alphabet, ∃ r, d.delta q a = some r) (hq : q ∈ d.states)
    (hw : ∀ a ∈ w, a ∈ alphabet) : ∃ r, d.runFrom q w = some r := by
  induction w generalizing q with
  | nil => exact ⟨q, rfl⟩
  | cons a w ih =>
    obtain ⟨ha, hw⟩ := List.forall_mem_cons.1 hw
    obtain ⟨s, hs⟩ := htotal q hq a ha
    rw [runFrom_cons, hs]
    exact ih (h.mem_of_delta hs).2.2 hw

@[simp]
theorem acceptsFrom_nil_iff : d.acceptsFrom q [] = true ↔ q ∈ d.final := List.contains_iff_mem

theorem acceptsFrom_of_runFrom (hr : d.runFrom q w = some r) :
    d.acceptsFrom q w = d.final.contains r := by
  rw [acceptsFrom, hr]
  rfl

theorem acceptsFrom_cons :
    d.acceptsFrom q (a :: w) = (d.delta q a).any fun r => d.acceptsFrom r w := by
  rw [acceptsFrom, runFrom_cons]
  cases d.delta q a <;> rfl

theorem acceptsFrom_append (hr : d.runFrom q u = some r) :
    d.acceptsFrom q (u ++ v) = d.acceptsFrom r v := by
  rw [acceptsFrom, runFrom_append, hr]
  rfl

/-- A word that is accepted from somewhere has runs of all its beginnings. -/
theorem exists_runFrom_of_acceptsFrom (h : d.acceptsFrom q (u ++ v) = true) :
    ∃ r, d.runFrom q u = some r := by
  cases hr : d.runFrom q u with
  | none =>
    rw [acceptsFrom, runFrom_append, hr] at h
    cases h
  | some r => exact ⟨r, rfl⟩

/-! ## Reachable and productive states -/

theorem acceptsFrom_eq_true_iff :
    d.acceptsFrom q w = true ↔ ∃ r ∈ d.final, d.runFrom q w = some r := by
  rw [acceptsFrom]
  cases d.runFrom q w <;> simp

theorem accepts_eq_false_of_final (h : d.final = []) (w : Word) : d.accepts w = false := by
  refine Bool.eq_false_iff.2 fun hw => ?_
  obtain ⟨r, hr, -⟩ := acceptsFrom_eq_true_iff.1 hw
  rw [h] at hr
  cases hr

theorem leads_forward_iff (h : d.IsValid) :
    Leads d.forward.successors.values p q ↔ ∃ w, d.runFrom p w = some q := by
  constructor
  · intro hp
    induction hp with
    | refl => exact ⟨[], rfl⟩
    | step hr _ ih =>
      obtain ⟨a, he⟩ := Automaton.mem_forward.1 hr
      obtain ⟨w, hw⟩ := ih
      exact ⟨a :: w, by rw [runFrom_cons, h.delta_eq_some_iff.2 he]; exact hw⟩
  · rintro ⟨w, hw⟩
    induction w generalizing p with
    | nil =>
      cases hw
      exact .refl _
    | cons a w ih =>
      obtain ⟨r, hr, hw⟩ := Option.bind_eq_some_iff.1 hw
      exact .step (Automaton.mem_forward.2 ⟨a, h.delta_eq_some_iff.1 hr⟩) (ih hw)

theorem mem_reachable (h : d.IsValid) : q ∈ d.reachable ↔ ∃ w, d.runFrom d.start w = some q := by
  rw [Automaton.reachable, Automaton.mem_reachableFrom]
  simp only [List.mem_singleton, exists_eq_left, leads_forward_iff h]

theorem mem_productive (h : d.IsValid) : q ∈ d.productive ↔ ∃ w, d.acceptsFrom q w = true := by
  simp only [Automaton.mem_productive, leads_forward_iff h, acceptsFrom_eq_true_iff]
  constructor
  · rintro ⟨p, hp, w, hw⟩
    exact ⟨w, p, hp, hw⟩
  · rintro ⟨w, p, hp, hw⟩
    exact ⟨p, hp, w, hw⟩

end RegularLanguage.DFA
