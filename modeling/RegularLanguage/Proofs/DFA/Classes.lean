import RegularLanguage.Proofs.DFA.Refinement
import RegularLanguage.Proofs.DFA.Trim
/-!
# Classes of states that accept the same words

In a trimmed automaton a move that is missing differs from every move there is, because each leads
to a state that accepts something. So accepting the same words is stable (`alike_isStable`), and
refinement ends in exactly the classes of states that accept the same words.
-/

namespace RegularLanguage.DFA

variable {d : DFA} {p : Partition} {q r s : State} {a : Symbol} {w : Word}

def Alike (d : DFA) (q r : State) : Prop :=
  q ∈ d.states ∧ r ∈ d.states ∧ ∀ w, d.acceptsFrom q w = d.acceptsFrom r w

/-- Every state can be reached, and every state but the start accepts some word. -/
structure IsTrim (d : DFA) : Prop extends d.IsValid where
  reachable : ∀ q ∈ d.states, ∃ w, d.runFrom d.start w = some q
  live : ∀ q ∈ d.states, q ≠ d.start → d.IsLive q

theorem trim_isTrim (h : d.IsValid) : d.trim.IsTrim := by
  refine ⟨trim_isValid h, fun q hq => ?_, fun q hq hne => trim_isLive h hq hne⟩
  obtain ⟨⟨w, hw⟩, rfl | hlive⟩ := (mem_trim_states h).1 hq
  · exact ⟨[], rfl⟩
  · exact ⟨w, (trim_runFrom_eq_some_iff h (trim_isValid h).start_mem hlive).2 hw⟩

/-- Where there are two states, each accepts some word: all can be reached from the start. -/
theorem IsTrim.isLive_of_ne (h : d.IsTrim) (hq : q ∈ d.states) (hr : r ∈ d.states) (hne : q ≠ r)
    (hs : s ∈ d.states) : d.IsLive s := by
  have hstart : d.IsLive d.start := by
    obtain ⟨t, ht, htne⟩ : ∃ t ∈ d.states, t ≠ d.start := by
      by_cases hqs : q = d.start
      · exact ⟨r, hr, fun hrs => hne (hqs.trans hrs.symm)⟩
      · exact ⟨q, hq, hqs⟩
    obtain ⟨u, hu⟩ := h.reachable t ht
    obtain ⟨v, hv⟩ := h.live t ht htne
    exact ⟨u ++ v, by rw [acceptsFrom_append hu]; exact hv⟩
  by_cases hss : s = d.start
  · exact hss ▸ hstart
  · exact h.live s hs hss

/-- Either every state accepts some word, or there is but the start, which is not final. -/
theorem IsTrim.isLive_or_alone (h : d.IsTrim) : (∀ q ∈ d.states, d.IsLive q) ∨
    (∀ w, d.accepts w = false) ∧ d.states = [d.start] ∧ d.final = [] := by
  by_cases hstart : d.IsLive d.start
  · refine .inl fun q hq => ?_
    by_cases hqs : q = d.start
    · exact hqs ▸ hstart
    · exact h.live q hq hqs
  · have halone : ∀ q ∈ d.states, q = d.start := fun q hq => by
      by_contra hne
      exact hstart (h.isLive_of_ne hq h.start_mem hne h.start_mem)
    have hnone : ∀ w, d.accepts w = false := fun w =>
      Bool.eq_false_iff.2 fun hw => hstart ⟨w, hw⟩
    refine .inr ⟨hnone, ?_, List.eq_nil_iff_forall_not_mem.2 fun q hq => hstart ⟨[], ?_⟩⟩
    · refine Ascending.ext h.states_ascending (List.pairwise_singleton _ _) fun q => ?_
      rw [List.mem_singleton]
      exact ⟨halone q, fun hqs => hqs ▸ h.start_mem⟩
    · exact acceptsFrom_nil_iff.2 (halone q (h.final_mem q hq) ▸ hq)

theorem Alike.symm (h : d.Alike q r) : d.Alike r q := ⟨h.2.1, h.1, fun w => (h.2.2 w).symm⟩

/-- Where one of two states that accept the same words can go, so can the other: the move leads to a
state that accepts something. -/
theorem IsTrim.exists_delta_of_alike (h : d.IsTrim) (hqr : d.Alike q r)
    (hs : d.delta q a = some s) : ∃ t, d.delta r a = some t := by
  by_cases hne : q = r
  · exact ⟨s, hne ▸ hs⟩
  · obtain ⟨w, hw⟩ := h.isLive_of_ne hqr.1 hqr.2.1 hne (h.toIsValid.mem_of_delta hs).2.2
    have hr : d.acceptsFrom r (a :: w) = true := by
      rw [← hqr.2.2, acceptsFrom_cons, hs]
      exact hw
    cases ht : d.delta r a with
    | some t => exact ⟨t, rfl⟩
    | none =>
      rw [acceptsFrom_cons, ht] at hr
      cases hr

theorem alike_isStable (h : d.IsTrim) : d.IsStable d.Alike := by
  refine ⟨fun q r hqr => ?_, fun q r hqr a => ?_⟩
  · rw [← acceptsFrom_nil_iff, ← acceptsFrom_nil_iff, hqr.2.2 []]
  · cases hs : d.delta q a with
    | some s =>
      obtain ⟨t, ht⟩ := h.exists_delta_of_alike hqr hs
      rw [ht]
      refine .some ⟨(h.toIsValid.mem_of_delta hs).2.2, (h.toIsValid.mem_of_delta ht).2.2,
        fun w => ?_⟩
      have hw := hqr.2.2 (a :: w)
      rw [acceptsFrom_cons, acceptsFrom_cons, hs, ht] at hw
      exact hw
    | none =>
      cases ht : d.delta r a with
      | none => exact .none
      | some t =>
        obtain ⟨s, hs'⟩ := h.exists_delta_of_alike hqr.symm ht
        rw [hs] at hs'
        cases hs'

/-- The coarsest stable partition of a trimmed automaton puts states together that accept the same
words, and no others. -/
theorem same_iff_alike (h : d.IsTrim) (hp : d.IsCoarse p) (hs : d.IsStable p.Same) :
    p.Same q r ↔ d.Alike q r := by
  constructor
  · intro hqr
    obtain ⟨hq, hr⟩ := hqr.mem hp.numbered
    exact ⟨hq, hr, fun w => hs.acceptsFrom_eq hqr⟩
  · exact fun hqr => hp.same_of_stable _ (alike_isStable h) q hqr.1 r hqr.2.1 hqr

/-- The classes of an automaton are those of a partition that puts states together that accept the
same words once the automaton has been trimmed. -/
theorem exists_equivalenceClasses_eq (h : d.IsValid) : ∃ p : Partition,
    p.IsNumbered d.trim.states ∧ d.trim.IsStable p.Same ∧
      (∀ q r, p.Same q r ↔ d.trim.Alike q r) ∧ d.equivalenceClasses = p.classes := by
  obtain ⟨p, hcoarse, hstable, hp⟩ := exists_stateClasses_eq (trim_isValid h)
  exact ⟨p, hcoarse.numbered, hstable,
    fun q r => same_iff_alike (trim_isTrim h) hcoarse hstable, hp⟩

end RegularLanguage.DFA
