import RegularLanguage.Proofs.DFA.Minimal
/-!
# Equivalence classes are the classes of accepted languages

The classes of a partition hold each state once (`Partition.flatten_classes_perm`), and each begins
with a state that is smaller than all members of later classes. The partition that refinement ends
in puts exactly those states of a trimmed automaton together that accept the same words, and
trimming takes no word from a state that it leaves (`equivalenceClasses_partition_by_words`).
-/

namespace RegularLanguage.DFA

variable {d : DFA} {p : Partition} {states : List State} {q r : State} {i : Nat}

namespace Partition

theorem mem_classes_iff (h : p.IsNumbered states) (hasc : Ascending states) {c : List State} :
    c ∈ p.classes ↔ ∃ i < p.count, p.members states i = c := by
  rw [classes_eq h hasc]
  simp only [List.mem_map, List.mem_range]

/-- The classes hold each state once. -/
theorem flatten_classes_perm (h : p.IsNumbered states) (hasc : Ascending states) :
    p.classes.flatten.Perm states := by
  have hflatten : p.classes.flatten = (p.numbered states).map Prod.fst := by
    rw [classes_eq h hasc, numbered, List.map_flatten, List.map_map]
    simp [Function.comp_def]
  have hnodup : ((p.numbered states).map Prod.fst).Nodup :=
    List.pairwise_map.2 ((pairwise_numbered h hasc).imp fun hne he => hne (by simp [he]))
  rw [hflatten]
  refine (List.perm_ext_iff_of_nodup hnodup hasc.nodup).2 fun q => ?_
  rw [h.mem_iff, List.mem_map]
  constructor
  · rintro ⟨⟨q, s⟩, hq, rfl⟩
    obtain ⟨i, hi, -⟩ := state?_eq_some_iff.1 ((mem_numbered h).1 hq)
    exact ⟨i, hi⟩
  · rintro ⟨i, hi⟩
    exact ⟨_, (mem_numbered h).2 (state?_of_index? hi), rfl⟩

/-- A class begins with a state that is smaller than all members of the classes after it. -/
theorem pairwise_classes (h : p.IsNumbered states) (hasc : Ascending states) :
    p.classes.Pairwise fun c c' => ∃ q ∈ c, ∀ r ∈ c', q < r := by
  rw [classes_eq h hasc]
  refine List.pairwise_map.2 (List.pairwise_lt_range.imp_of_mem fun {i j} hi _ hij => ?_)
  refine ⟨p.first states i, (mem_members h).2 (index?_first h (List.mem_range.1 hi)), ?_⟩
  intro r hr
  obtain ⟨s, hs, hsi⟩ := h.exists_smaller r j ((mem_members h).1 hr) i hij
  exact Int.lt_of_le_of_lt (first_le h hasc hsi) hs

/-- Two states are members of one class when they have the same class. -/
theorem exists_mem_classes_iff (h : p.IsNumbered states) (hasc : Ascending states) :
    (∃ c ∈ p.classes, q ∈ c ∧ r ∈ c) ↔ p.Same q r := by
  simp only [mem_classes_iff h hasc]
  constructor
  · rintro ⟨-, ⟨i, -, rfl⟩, hq, hr⟩
    exact ⟨i, (mem_members h).1 hq, (mem_members h).1 hr⟩
  · rintro ⟨i, hq, hr⟩
    exact ⟨_, ⟨i, h.lt_count q i hq, rfl⟩, (mem_members h).2 hq, (mem_members h).2 hr⟩

end Partition

/-- States that are left by trimming accept the same words afterwards if they did before. -/
theorem trim_alike_iff (h : d.IsValid) (hq : q ∈ d.trim.states) (hr : r ∈ d.trim.states) :
    d.trim.Alike q r ↔ ∀ w, d.acceptsFrom q w = d.acceptsFrom r w := by
  have hwords : (∀ w, d.trim.acceptsFrom q w = d.trim.acceptsFrom r w) ↔
      ∀ w, d.acceptsFrom q w = d.acceptsFrom r w :=
    forall_congr' fun w => by rw [trim_acceptsFrom h hq, trim_acceptsFrom h hr]
  rw [← hwords]
  exact ⟨fun halike => halike.2.2, fun hall => ⟨hq, hr, hall⟩⟩

/-- The classes are a partition of the states that are left by trimming, by ascending least members.
Two states are in one class exactly when the automaton accepts the same words from both. -/
theorem equivalenceClasses_partition_by_words (d : DFA) (h : d.IsValid) :
    let classes := d.equivalenceClasses
    (∀ c ∈ classes, c ≠ [] ∧ Ascending c) ∧ classes.flatten.Perm d.trim.states ∧
      classes.Pairwise (fun c c' => ∃ q ∈ c, ∀ r ∈ c', q < r) ∧
      ∀ q ∈ d.trim.states, ∀ r ∈ d.trim.states,
        (∃ c ∈ classes, q ∈ c ∧ r ∈ c) ↔ ∀ w, d.acceptsFrom q w = d.acceptsFrom r w := by
  intro classes
  obtain ⟨p, hp, -, halike, hclasses⟩ := exists_equivalenceClasses_eq h
  have hasc := (trim_isValid h).states_ascending
  have heq : classes = p.classes := hclasses
  rw [heq]
  refine ⟨fun c hc => ?_, Partition.flatten_classes_perm hp hasc,
    Partition.pairwise_classes hp hasc, fun q hq r hr => ?_⟩
  · obtain ⟨i, hi, rfl⟩ := (Partition.mem_classes_iff hp hasc).1 hc
    obtain ⟨rest, hrest⟩ := Partition.members_eq_cons hp hi
    exact ⟨by simp [hrest], Partition.ascending_members hasc⟩
  · rw [Partition.exists_mem_classes_iff hp hasc, halike, trim_alike_iff h hq hr]

theorem equivalenceClasses_partition_by_words_forked : forked.IsValid ∧
    let classes := forked.equivalenceClasses
    (∀ c ∈ classes, c ≠ [] ∧ Ascending c) ∧ classes.flatten.Perm forked.trim.states ∧
      classes.Pairwise (fun c c' => ∃ q ∈ c, ∀ r ∈ c', q < r) ∧
      ∀ q ∈ forked.trim.states, ∀ r ∈ forked.trim.states,
        (∃ c ∈ classes, q ∈ c ∧ r ∈ c) ↔
          ∀ w, forked.acceptsFrom q w = forked.acceptsFrom r w :=
  ⟨forked_isValid, equivalenceClasses_partition_by_words forked forked_isValid⟩

example : forked.equivalenceClasses = [[3], [5, 9]] := by decide

end RegularLanguage.DFA
