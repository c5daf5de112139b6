import RegularLanguage.DFA.Refinement
import RegularLanguage.Proofs.Search.Grouping
import RegularLanguage.Proofs.Search.Numbering
/-!
# Partitions by keys

States are put into one class when they agree under a key. Classes are numbered in the order in
which ascending states bring them up, so the least members of the classes ascend with the numbers
(`IsNumbered.exists_smaller`).
-/

namespace RegularLanguage.DFA

open Std

variable {q r : State} {i j : Nat} {states : List State}

namespace Partition

def index? (p : Partition) (q : State) : Option Nat := p.classOf[q]?

/-- The states are those of the partition, the classes have the numbers below `count`, and a class
comes up before all classes of greater numbers. -/
structure IsNumbered (p : Partition) (states : List State) : Prop where
  mem_iff : ∀ q, q ∈ states ↔ ∃ i, p.index? q = some i
  lt_count : ∀ q i, p.index? q = some i → i < p.count
  exists_of_lt : ∀ i < p.count, ∃ q, p.index? q = some i
  exists_smaller : ∀ q j, p.index? q = some j → ∀ i < j, ∃ r, r < q ∧ p.index? r = some i

/-! ## Placing states one by one -/

variable {κ : Type} [Ord κ]

def place (key : State → κ) (s : Numbering κ × TreeMap State Nat compare) (q : State) :
    Numbering κ × TreeMap State Nat compare :=
  ((s.1.intern (key q)).2, s.2.insert q (s.1.intern (key q)).1)

theorem byKey_eq (states : List State) (key : State → κ) :
    byKey states key = ⟨(states.foldl (place key) ({}, ∅)).1.size,
      (states.foldl (place key) ({}, ∅)).2⟩ := rfl

/-- What holds when some states have been put into their classes. -/
structure IsPlaced (key : State → κ) (done : List State)
    (s : Numbering κ × TreeMap State Nat compare) : Prop where
  proper : s.1.IsProper
  classOf_iff : ∀ q i, s.2[q]? = some i ↔ q ∈ done ∧ s.1.number? (key q) = some i
  known : ∀ q ∈ done, ∃ i, s.1.number? (key q) = some i
  used : ∀ i < s.1.size, ∃ q ∈ done, s.1.number? (key q) = some i
  smaller : ∀ q ∈ done, ∀ j, s.1.number? (key q) = some j → ∀ i < j,
    ∃ r ∈ done, r < q ∧ s.1.number? (key r) = some i

variable [TransOrd κ] [LawfulEqOrd κ] {key : State → κ} {done : List State}
  {s : Numbering κ × TreeMap State Nat compare}

theorem getElem?_insert_state {m : TreeMap State Nat compare} :
    (m.insert q i)[r]? = if q = r then some i else m[r]? := by
  rw [TreeMap.getElem?_insert]
  simp only [LawfulEqOrd.compare_eq_iff_eq]

/-- Asking for the number of a state's key changes no number that another state has. -/
theorem IsPlaced.intern (h : IsPlaced key done s) (q : State) :
    (s.1.intern (key q)).2.IsProper ∧
      (s.1.intern (key q)).2.number? (key q) = some (s.1.intern (key q)).1 ∧
      (∀ r ∈ done, (s.1.intern (key q)).2.number? (key r) = s.1.number? (key r)) ∧
      (∀ i < (s.1.intern (key q)).2.size, i < s.1.size ∨ i = (s.1.intern (key q)).1) ∧
      ∀ i < (s.1.intern (key q)).1, i < s.1.size := by
  cases hk : s.1.number? (key q) with
  | some n =>
    have hn := Numbering.lt_size_of_key? ((h.proper _ _).1 hk)
    rw [Numbering.intern_of_some hk]
    exact ⟨h.proper, hk, fun _ _ => rfl, fun i hi => .inl hi, fun i hi => Nat.lt_trans hi hn⟩
  | none =>
    rw [Numbering.intern_of_none hk]
    refine ⟨h.proper.add hk, Numbering.number?_add_self, fun r hr => ?_, fun i hi => ?_,
      fun i hi => hi⟩
    · refine Numbering.number?_add_of_ne fun he => ?_
      obtain ⟨j, hj⟩ := h.known r hr
      rw [he, hk] at hj
      cases hj
    · rw [Numbering.size_add] at hi
      simp only
      omega

/-- A state after all others is put into a class that is known, or into the next one. -/
theorem IsPlaced.place (h : IsPlaced key done s) (hlast : ∀ r ∈ done, r < q) :
    IsPlaced key (done ++ [q]) (place key s q) := by
  obtain ⟨hproper, hself, hold, hsize, hbelow⟩ := h.intern q
  have hq : ∀ r ∈ done, q ≠ r := fun r hr he => Int.lt_irrefl r (he ▸ hlast r hr)
  have hmem : ∀ {r}, r ∈ done ++ [q] ↔ r ∈ done ∨ r = q := by simp
  -- a class below that of the new state has a member among the states before
  have hfirst : ∀ i < (s.1.intern (key q)).1, ∃ r ∈ done ++ [q], r < q ∧
      (s.1.intern (key q)).2.number? (key r) = some i := by
    intro i hi
    obtain ⟨r, hr, hri⟩ := h.used i (hbelow i hi)
    exact ⟨r, hmem.2 (.inl hr), hlast r hr, (hold r hr).trans hri⟩
  refine ⟨hproper, fun r i => ?_, fun r hr => ?_, fun i hi => ?_, fun r hr j hj i hi => ?_⟩
  · rw [Partition.place, getElem?_insert_state]
    by_cases hr : q = r
    · subst hr
      simp [hself]
    · rw [if_neg hr, h.classOf_iff, hmem]
      constructor
      · exact fun ⟨hd, hi⟩ => ⟨.inl hd, (hold r hd).trans hi⟩
      · rintro ⟨hd | hd, hi⟩
        · exact ⟨hd, (hold r hd).symm.trans hi⟩
        · exact absurd hd.symm hr
  · rcases hmem.1 hr with hr | rfl
    · obtain ⟨i, hi⟩ := h.known r hr
      exact ⟨i, (hold r hr).trans hi⟩
    · exact ⟨_, hself⟩
  · rcases hsize i hi with hi | rfl
    · obtain ⟨r, hr, hri⟩ := h.used i hi
      exact ⟨r, hmem.2 (.inl hr), (hold r hr).trans hri⟩
    · exact ⟨q, hmem.2 (.inr rfl), hself⟩
  · rcases hmem.1 hr with hr | rfl
    · obtain ⟨t, ht, htr, hti⟩ := h.smaller r hr j ((hold r hr).symm.trans hj) i hi
      exact ⟨t, hmem.2 (.inl ht), htr, (hold t ht).trans hti⟩
    · obtain rfl : _ = j := Option.some.inj (hself.symm.trans hj)
      exact hfirst i hi

theorem IsPlaced.foldl (h : IsPlaced key done s) (hasc : Ascending (done ++ states)) :
    IsPlaced key (done ++ states) (states.foldl (Partition.place key) s) := by
  induction states generalizing done s with
  | nil => simpa using h
  | cons q states ih =>
    have hlast : ∀ r ∈ done, r < q := fun r hr =>
      Int.compare_eq_lt.1 ((List.pairwise_append.1 hasc).2.2 r hr q List.mem_cons_self)
    have happend : done ++ q :: states = done ++ [q] ++ states := by simp
    rw [happend] at hasc ⊢
    exact ih (h.place hlast) hasc

omit [LawfulEqOrd κ] in
theorem isPlaced_nil (key : State → κ) : IsPlaced key [] ({}, ∅) :=
  ⟨Numbering.isProper_empty, by simp, by simp, by simp [Numbering.size], by simp⟩

theorem byKey_isNumbered (hasc : Ascending states) : (byKey states key).IsNumbered states := by
  have h := (isPlaced_nil key).foldl hasc
  rw [List.nil_append] at h
  rw [byKey_eq]
  refine ⟨fun q => ?_, fun q i hi => ?_, fun i hi => ?_, fun q j hj i hi => ?_⟩
  · simp only [index?, h.classOf_iff]
    exact ⟨fun hq => (h.known q hq).imp fun i hi => ⟨hq, hi⟩, fun ⟨i, hq, _⟩ => hq⟩
  · exact Numbering.lt_size_of_key? ((h.proper _ _).1 ((h.classOf_iff q i).1 hi).2)
  · obtain ⟨q, hq, hqi⟩ := h.used i hi
    exact ⟨q, (h.classOf_iff q i).2 ⟨hq, hqi⟩⟩
  · obtain ⟨hq, hqj⟩ := (h.classOf_iff q j).1 hj
    obtain ⟨r, hr, hrq, hri⟩ := h.smaller q hq j hqj i hi
    exact ⟨r, hrq, (h.classOf_iff r i).2 ⟨hr, hri⟩⟩

/-- Two states are in one class when their keys agree. -/
theorem byKey_index?_eq_iff (hasc : Ascending states) (hq : q ∈ states) (hr : r ∈ states) :
    (byKey states key).index? q = (byKey states key).index? r ↔ key q = key r := by
  have h := (isPlaced_nil key).foldl hasc
  rw [List.nil_append] at h
  rw [byKey_eq]
  obtain ⟨i, hi⟩ := h.known q hq
  obtain ⟨j, hj⟩ := h.known r hr
  rw [index?, index?, (h.classOf_iff q i).2 ⟨hq, hi⟩, (h.classOf_iff r j).2 ⟨hr, hj⟩]
  constructor
  · intro heq
    cases heq
    exact Option.some.inj (((h.proper _ _).1 hi).symm.trans ((h.proper _ _).1 hj))
  · intro heq
    rw [heq] at hi
    exact hi.symm.trans hj

/-! ## The classes of a partition -/

variable {p : Partition}

/-- The members of a class, by ascending states. -/
def members (p : Partition) (states : List State) (i : Nat) : List State :=
  states.filter fun q => p.index? q = some i

theorem mem_members (h : p.IsNumbered states) : q ∈ p.members states i ↔ p.index? q = some i := by
  rw [members, List.mem_filter, decide_eq_true_iff]
  exact and_iff_right_of_imp fun hi => (h.mem_iff q).2 ⟨i, hi⟩

theorem ascending_members (hasc : Ascending states) : Ascending (p.members states i) :=
  List.Pairwise.filter _ hasc

/-- The classes are listed by their numbers, and each lists its members. -/
theorem classes_eq (h : p.IsNumbered states) (hasc : Ascending states) :
    p.classes = (List.range p.count).map (p.members states) := by
  have hclasses : p.classes = (Grouping.ofPairs (p.classOf.toList.map fun x =>
      (x.2, x.1))).toList.map Prod.snd := rfl
  have hmem : ∀ {i q}, (i, q) ∈ p.classOf.toList.map (fun x => (x.2, x.1)) ↔
      p.index? q = some i := by
    intro i q
    rw [index?, ← TreeMap.mem_toList_iff_getElem?_eq_some, List.mem_map]
    constructor
    · rintro ⟨⟨r, j⟩, h, he⟩
      cases he
      exact h
    · exact fun h => ⟨(q, i), h, rfl⟩
  rw [hclasses, Grouping.map_snd_toList]
  congr 1
  · refine funext fun i => Ascending.ext ?_ (ascending_members hasc) fun q => ?_
    · rw [Grouping.values_ofPairs, List.filterMap_map]
      refine List.Pairwise.filterMap _ (fun a b hab c hc e he => ?_) TreeMap.ordered_keys_toList
      simp only [Function.comp_apply] at hc he
      split at hc <;> cases hc
      split at he <;> cases he
      exact hab
    · rw [Grouping.mem_values_ofPairs, hmem, mem_members h]
  · refine Ascending.ext TreeMap.ordered_keys ?_ fun i => ?_
    · exact List.pairwise_lt_range.imp fun hab => Nat.compare_eq_lt.2 hab
    · rw [TreeMap.mem_keys, Grouping.mem_ofPairs, List.mem_range]
      simp only [hmem]
      exact ⟨fun hi => hi.elim fun q hq => h.lt_count q i hq, h.exists_of_lt i⟩

end Partition

end RegularLanguage.DFA
