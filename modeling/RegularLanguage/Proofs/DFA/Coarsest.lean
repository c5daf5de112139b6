import RegularLanguage.Proofs.DFA.Distinguish
import RegularLanguage.Proofs.DFA.Residual
/-!
# Refinement ends in time, in the coarsest stable partition

There is a class to begin with, there are never more classes than states, and every round but the
last adds one. So the rounds are no more than the states (`exists_round_count`). What they leave is
told here in terms of the listed classes alone: the list is a stable partition, and every other
stable partition has each of its classes inside one of these (`refine_terminates_and_coarsest`).
Nothing is asked of the states, which may be out of reach or accept no word.
-/

namespace RegularLanguage.DFA

variable {d : DFA} {p p' : Partition} {states : List State} {classes : List (List State)}
  {q r : State} {a : Symbol}

/-! ## The number of rounds -/

section

variable {m : Moves} {symbols : List Symbol} {fuel fuel' : Nat}

/-- Rounds that are not needed are not made. -/
theorem refine_mono (hle : fuel ≤ fuel') (h : refine states m symbols fuel p = some p') :
    refine states m symbols fuel' p = some p' := by
  induction fuel generalizing fuel' p with
  | zero => cases h
  | succ fuel ih =>
    obtain ⟨fuel', rfl⟩ : ∃ k, fuel' = k + 1 := ⟨fuel' - 1, by omega⟩
    simp only [refine] at h ⊢
    split
    · rename_i hcount
      rwa [if_pos hcount] at h
    · rename_i hcount
      rw [if_neg hcount] at h
      exact ih (by omega) h

/-- The rounds that are needed: with fewer there is no result, with more there is no other. -/
theorem exists_least_fuel (h : refine states m symbols fuel p = some p') :
    ∃ k ≤ fuel, ∀ n, refine states m symbols n p = if n < k then none else some p' := by
  classical
  have hex : ∃ n, refine states m symbols n p = some p' := ⟨fuel, h⟩
  refine ⟨Nat.find hex, Nat.find_min' hex h, fun n => ?_⟩
  split
  · rename_i hn
    cases hr : refine states m symbols n p with
    | none => rfl
    | some p'' =>
      -- the result would still be there after all rounds, where it is known
      have hsame := (refine_mono (Nat.le_of_lt hn) hr).symm.trans (Nat.find_spec hex)
      exact absurd (hr.trans hsame) (Nat.find_min hex hn)
  · rename_i hn
    exact refine_mono (Nat.le_of_not_lt hn) (Nat.find_spec hex)

end

theorem initialPartition_count_pos (h : d.IsValid) : 0 < d.initialPartition.count := by
  have hnum := (initialPartition_isCoarse h).numbered
  obtain ⟨i, hi⟩ := (hnum.mem_iff d.start).1 h.start_mem
  exact Nat.zero_lt_of_lt (hnum.lt_count d.start i hi)

/-- No more rounds are made than there are states. -/
theorem exists_round_count (h : d.IsValid) :
    ∃ k ≤ d.states.length, ∃ p : Partition, d.IsCoarse p ∧ d.IsStable p.Same ∧
      d.stateClasses = p.classes ∧
      ∀ fuel, refine d.states d.outgoing d.alphabet fuel d.initialPartition =
        if fuel < k then none else some p := by
  have hpos := initialPartition_count_pos h
  obtain ⟨p, hp, hcoarse, hstable⟩ :=
    refine_spec h d.states.length (initialPartition_isCoarse h) (by omega)
  obtain ⟨k, hk, hrounds⟩ := exists_least_fuel hp
  refine ⟨k, hk, p, hcoarse, hstable, ?_, hrounds⟩
  rw [stateClasses, hrounds, if_neg (by omega)]

/-! ## Stable partitions as lists of classes -/

/-- The classes hold each state once and none is empty. The members of a class are all final or all
not, and a symbol leads them all into one class or leads none of them anywhere. -/
structure IsStablePartition (d : DFA) (classes : List (List State)) : Prop where
  ne_nil : ∀ c ∈ classes, c ≠ []
  perm : classes.flatten.Perm d.states
  final_alike : ∀ c ∈ classes, (∀ q ∈ c, q ∈ d.final) ∨ ∀ q ∈ c, q ∉ d.final
  moves_alike : ∀ c ∈ classes, ∀ a ∈ d.alphabet, (∀ q ∈ c, d.delta q a = none) ∨
    ∃ c' ∈ classes, ∀ q ∈ c, ∃ r ∈ c', d.delta q a = some r

theorem IsStablePartition.mem_states (h : d.IsStablePartition classes) {c : List State}
    (hc : c ∈ classes) (hq : q ∈ c) : q ∈ d.states :=
  h.perm.mem_iff.1 (List.mem_flatten.2 ⟨c, hc, hq⟩)

/-- A symbol outside the alphabet leads nowhere. -/
theorem IsValid.delta_of_not_mem (h : d.IsValid) (ha : a ∉ d.alphabet) : d.delta q a = none := by
  cases hr : d.delta q a with
  | none => rfl
  | some r => exact absurd (h.mem_of_delta hr).2.1 ha

/-- Being in one class of a stable partition is a stable relation. -/
theorem IsStablePartition.isStable (h : d.IsValid) (hs : d.IsStablePartition classes) :
    d.IsStable fun q r => ∃ c ∈ classes, q ∈ c ∧ r ∈ c := by
  constructor
  · rintro q r ⟨c, hc, hq, hr⟩
    rcases hs.final_alike c hc with hall | hnone
    · simp [hall q hq, hall r hr]
    · simp [hnone q hq, hnone r hr]
  · rintro q r ⟨c, hc, hq, hr⟩ a
    by_cases ha : a ∈ d.alphabet
    · rcases hs.moves_alike c hc a ha with hnone | ⟨c', hc', hall⟩
      · rw [hnone q hq, hnone r hr]
        exact .none
      · obtain ⟨s, hs', hqs⟩ := hall q hq
        obtain ⟨t, ht, hrt⟩ := hall r hr
        rw [hqs, hrt]
        exact .some ⟨c', hc', hs', ht⟩
    · rw [h.delta_of_not_mem ha, h.delta_of_not_mem ha]
      exact .none

namespace Partition

/-- The members of a class are all final or all not. -/
theorem final_alike (hp : p.IsNumbered d.states) (hs : d.IsStable p.Same) (i : Nat) :
    (∀ q ∈ p.members d.states i, q ∈ d.final) ∨ ∀ q ∈ p.members d.states i, q ∉ d.final := by
  have hsame : ∀ q ∈ p.members d.states i, ∀ r ∈ p.members d.states i,
      (q ∈ d.final ↔ r ∈ d.final) := by
    intro q hq r hr
    exact hs.final_iff q r ⟨i, (mem_members hp).1 hq, (mem_members hp).1 hr⟩
  by_cases hex : ∃ q ∈ p.members d.states i, q ∈ d.final
  · obtain ⟨q, hq, hfinal⟩ := hex
    exact .inl fun r hr => (hsame q hq r hr).1 hfinal
  · exact .inr fun q hq hfinal => hex ⟨q, hq, hfinal⟩

/-- All members of a class go where the least one goes: into one class, or nowhere. -/
theorem moves_alike (h : d.IsValid) (hp : p.IsNumbered d.states) (hs : d.IsStable p.Same) (i : Nat)
    (a : Symbol) : (∀ q ∈ p.members d.states i, d.delta q a = none) ∨
      ∃ c ∈ p.classes, ∀ q ∈ p.members d.states i, ∃ r ∈ c, d.delta q a = some r := by
  have hrel : ∀ q ∈ p.members d.states i,
      Option.Rel p.Same (d.delta (p.first d.states i) a) (d.delta q a) := by
    intro q hq
    exact hs.delta_rel _ _ (same_first hp ((mem_members hp).1 hq)) a
  cases hfirst : d.delta (p.first d.states i) a with
  | none =>
    rw [hfirst] at hrel
    refine .inl fun q hq => ?_
    have hnone := hrel q hq
    generalize d.delta q a = x at hnone ⊢
    cases hnone
    rfl
  | some s =>
    rw [hfirst] at hrel
    obtain ⟨j, hj⟩ := (hp.mem_iff s).1 (h.mem_of_delta hfirst).2.2
    refine .inr ⟨p.members d.states j, ?_, fun q hq => ?_⟩
    · exact (mem_classes_iff hp h.states_ascending).2 ⟨j, hp.lt_count s j hj, rfl⟩
    · have hsome := hrel q hq
      generalize d.delta q a = x at hsome ⊢
      cases hsome with
      | some hst => exact ⟨_, (mem_members hp).2 (hst.index?_eq hj), rfl⟩

/-- The classes of a partition are a stable partition if being in one class is stable. -/
theorem isStablePartition_classes (h : d.IsValid) (hp : p.IsNumbered d.states)
    (hs : d.IsStable p.Same) : d.IsStablePartition p.classes := by
  have hmem : ∀ {c}, c ∈ p.classes ↔ ∃ i < p.count, p.members d.states i = c :=
    mem_classes_iff hp h.states_ascending
  refine ⟨fun c hc => ?_, flatten_classes_perm hp h.states_ascending, fun c hc => ?_,
    fun c hc a _ => ?_⟩
  · obtain ⟨i, hi, rfl⟩ := hmem.1 hc
    obtain ⟨rest, hrest⟩ := members_eq_cons hp hi
    simp [hrest]
  · obtain ⟨i, -, rfl⟩ := hmem.1 hc
    exact final_alike hp hs i
  · obtain ⟨i, -, rfl⟩ := hmem.1 hc
    exact moves_alike h hp hs i a

/-- A stable partition has each of its classes inside a class of any coarse partition. -/
theorem exists_class_around (h : d.IsValid) (hp : d.IsCoarse p) (hs : d.IsStablePartition classes)
    {c : List State} (hc : c ∈ classes) : ∃ c' ∈ p.classes, ∀ q ∈ c, q ∈ c' := by
  obtain ⟨q, hq⟩ := List.exists_mem_of_ne_nil c (hs.ne_nil c hc)
  obtain ⟨i, hi⟩ := (hp.numbered.mem_iff q).1 (hs.mem_states hc hq)
  refine ⟨p.members d.states i, ?_, fun r hr => (mem_members hp.numbered).2 ?_⟩
  · exact (mem_classes_iff hp.numbered h.states_ascending).2 ⟨i, hp.numbered.lt_count q i hi, rfl⟩
  · have hsame : p.Same q r := hp.same_of_stable _ (hs.isStable h) q (hs.mem_states hc hq) r
      (hs.mem_states hc hr) ⟨c, hc, hq, hr⟩
    exact hsame.index?_eq hi

end Partition

/-! ## Where refinement ends -/

/-- Refinement ends, after no more rounds than there are states. It leaves a stable partition of the
states, in which the classes of every other one are contained, and lists the classes by their least
members. -/
theorem refine_terminates_and_coarsest (d : DFA) (h : d.IsValid) :
    (∃ k ≤ d.states.length, ∃ p : Partition, d.stateClasses = p.classes ∧
      ∀ fuel, refine d.states d.outgoing d.alphabet fuel d.initialPartition =
        if fuel < k then none else some p) ∧
    d.IsStablePartition d.stateClasses ∧
    (∀ classes, d.IsStablePartition classes →
      ∀ c ∈ classes, ∃ c' ∈ d.stateClasses, ∀ q ∈ c, q ∈ c') ∧
    (∀ c ∈ d.stateClasses, Ascending c) ∧
    d.stateClasses.Pairwise fun c c' => ∃ q ∈ c, ∀ r ∈ c', q < r := by
  obtain ⟨k, hk, p, hcoarse, hstable, hclasses, hrounds⟩ := exists_round_count h
  have hp := hcoarse.numbered
  refine ⟨⟨k, hk, p, hclasses, hrounds⟩, ?_⟩
  rw [hclasses]
  refine ⟨Partition.isStablePartition_classes h hp hstable, fun classes hs c hc => ?_,
    fun c hc => ?_, Partition.pairwise_classes hp h.states_ascending⟩
  · exact Partition.exists_class_around h hcoarse hs hc
  · obtain ⟨i, -, rfl⟩ := (Partition.mem_classes_iff hp h.states_ascending).1 hc
    exact Partition.ascending_members h.states_ascending

/-- A state that is not reached shares a class with the start. -/
theorem refine_terminates_and_coarsest_stray : stray.IsValid ∧
    stray.stateClasses = [[0, 7], [1], [2]] ∧
    (∃ k ≤ 4, ∃ p : Partition, stray.stateClasses = p.classes ∧
      ∀ fuel, refine stray.states stray.outgoing stray.alphabet fuel stray.initialPartition =
        if fuel < k then none else some p) ∧
    stray.IsStablePartition [[0, 7], [1], [2]] ∧
    ∀ classes, stray.IsStablePartition classes →
      ∀ c ∈ classes, ∃ c' ∈ [[0, 7], [1], [2]], ∀ q ∈ c, q ∈ c' := by
  have hclasses : stray.stateClasses = [[0, 7], [1], [2]] := by decide
  obtain ⟨hrounds, hstable, hcoarsest, -⟩ := refine_terminates_and_coarsest stray stray_isValid
  rw [hclasses] at hstable hcoarsest
  exact ⟨stray_isValid, hclasses, hrounds, hstable, hcoarsest⟩

end RegularLanguage.DFA
