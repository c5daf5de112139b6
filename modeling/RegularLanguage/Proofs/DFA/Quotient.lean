import RegularLanguage.DFA.Minimize
import RegularLanguage.Proofs.DFA.Refinement
/-!
# The quotient by a stable partition

A class goes where its least member goes. All its members go to the same class, so a run of the
automaton is a run of the quotient through the classes (`quotient_runFrom`).
-/

namespace RegularLanguage.DFA

open Std

variable {d : DFA} {p : Partition} {states : List State} {q r s t : State} {a : Symbol} {w : Word}
  {i j : Nat}

namespace Partition

/-- The state that the class of a state becomes. -/
def state? (p : Partition) (q : State) : Option State := (p.index? q).map Int.ofNat

theorem state?_eq_some_iff : p.state? q = some s ↔ ∃ i, p.index? q = some i ∧ Int.ofNat i = s :=
  Option.map_eq_some_iff

theorem state?_of_index? (hq : p.index? q = some i) : p.state? q = some (Int.ofNat i) := by
  rw [state?, hq]
  rfl

theorem Same.state?_eq (hs : p.Same q r) : p.state? q = p.state? r := by
  obtain ⟨i, hq, hr⟩ := hs
  rw [state?_of_index? hq, state?_of_index? hr]

def first (p : Partition) (states : List State) (i : Nat) : State := (p.members states i).headD 0

theorem members_eq_cons (h : p.IsNumbered states) (hi : i < p.count) :
    ∃ rest, p.members states i = p.first states i :: rest := by
  obtain ⟨q, hq⟩ := h.exists_of_lt i hi
  have hmem := (mem_members h).2 hq
  rw [first]
  cases hm : p.members states i with
  | nil =>
    rw [hm] at hmem
    cases hmem
  | cons r rest => exact ⟨rest, rfl⟩

theorem index?_first (h : p.IsNumbered states) (hi : i < p.count) :
    p.index? (p.first states i) = some i := by
  obtain ⟨rest, hrest⟩ := members_eq_cons h hi
  rw [← mem_members h, hrest]
  exact List.mem_cons_self

theorem first_mem (h : p.IsNumbered states) (hi : i < p.count) : p.first states i ∈ states :=
  (h.mem_iff _).2 ⟨i, index?_first h hi⟩

theorem first_le (h : p.IsNumbered states) (hasc : Ascending states) (hq : p.index? q = some i) :
    p.first states i ≤ q := by
  obtain ⟨rest, hrest⟩ := members_eq_cons h (h.lt_count q i hq)
  have hmem := (mem_members h).2 hq
  have hmembers := ascending_members (i := i) (p := p) hasc
  rw [hrest] at hmem hmembers
  rcases List.mem_cons.1 hmem with rfl | hmem
  · exact Int.le_refl _
  · exact Int.le_of_lt (Int.compare_eq_lt.1 ((List.pairwise_cons.1 hmembers).1 q hmem))

/-- The least members of the classes ascend with the numbers of the classes. -/
theorem first_le_of_le (h : p.IsNumbered states) (hasc : Ascending states) (hij : i ≤ j)
    (hq : p.index? q = some j) : p.first states i ≤ q := by
  rcases Nat.lt_or_eq_of_le hij with hlt | rfl
  · obtain ⟨r, hrq, hr⟩ := h.exists_smaller q j hq i hlt
    exact Int.le_trans (first_le h hasc hr) (Int.le_of_lt hrq)
  · exact first_le h hasc hq

theorem same_first (h : p.IsNumbered states) (hq : p.index? q = some i) :
    p.Same (p.first states i) q :=
  ⟨i, index?_first h (h.lt_count q i hq), hq⟩

/-! ## What is looked up while the quotient is made -/

theorem mapIdx_classes {β : Type} (h : p.IsNumbered states) (hasc : Ascending states)
    (f : Nat → List State → β) :
    p.classes.mapIdx f = (List.range p.count).map fun i => f i (p.members states i) := by
  rw [classes_eq h hasc]
  exact List.ext_getElem (by simp) (by simp)

theorem representatives_classes (h : p.IsNumbered states) (hasc : Ascending states) :
    representatives p.classes =
      (List.range p.count).map fun i => (Int.ofNat i, p.first states i) := by
  rw [representatives, mapIdx_classes h hasc, List.filterMap_map, ← List.filterMap_eq_map]
  refine List.filterMap_congr fun i hi => ?_
  obtain ⟨rest, hrest⟩ := members_eq_cons h (List.mem_range.1 hi)
  simp [hrest]

/-- The members of all classes, each with the number of its class. -/
def numbered (p : Partition) (states : List State) : List (State × State) :=
  ((List.range p.count).map fun i => (p.members states i).map fun q => (q, Int.ofNat i)).flatten

theorem mem_numbered (h : p.IsNumbered states) :
    (q, s) ∈ p.numbered states ↔ p.state? q = some s := by
  rw [numbered, List.mem_flatten, state?_eq_some_iff]
  constructor
  · rintro ⟨l, hl, hq⟩
    obtain ⟨i, -, rfl⟩ := List.mem_map.1 hl
    obtain ⟨r, hr, heq⟩ := List.mem_map.1 hq
    cases heq
    exact ⟨i, (mem_members h).1 hr, rfl⟩
  · rintro ⟨i, hi, rfl⟩
    exact ⟨_, List.mem_map.2 ⟨i, List.mem_range.2 (h.lt_count q i hi), rfl⟩,
      List.mem_map.2 ⟨q, (mem_members h).2 hi, rfl⟩⟩

/-- No state is a member of two classes. -/
theorem pairwise_numbered (h : p.IsNumbered states) (hasc : Ascending states) :
    (p.numbered states).Pairwise fun x y => ¬ compare x.1 y.1 = .eq := by
  refine List.pairwise_flatten.2 ⟨fun l hl => ?_, ?_⟩
  · obtain ⟨i, -, rfl⟩ := List.mem_map.1 hl
    refine List.pairwise_map.2 ((ascending_members hasc).imp fun hab => ?_)
    simp [hab]
  · refine List.pairwise_map.2 (List.pairwise_lt_range.imp fun hij x hx y hy heq => ?_)
    obtain ⟨q, hq, rfl⟩ := List.mem_map.1 hx
    obtain ⟨r, hr, rfl⟩ := List.mem_map.1 hy
    obtain rfl : q = r := LawfulEqOrd.compare_eq_iff_eq.1 heq
    have := Option.some.inj (((mem_members h).1 hq).symm.trans ((mem_members h).1 hr))
    omega

theorem getElem?_classNumbers (h : p.IsNumbered states) (hasc : Ascending states) :
    (classNumbers p.classes)[q]? = p.state? q := by
  have hpairs : classNumbers p.classes = .ofList (p.numbered states) compare := by
    rw [classNumbers, mapIdx_classes h hasc]
    rfl
  rw [hpairs]
  cases hq : p.state? q with
  | some s =>
    exact TreeMap.getElem?_ofList_of_mem ReflCmp.compare_self (pairwise_numbered h hasc)
      ((mem_numbered h).2 hq)
  | none =>
    refine TreeMap.getElem?_ofList_of_contains_eq_false (Bool.eq_false_iff.2 fun hc => ?_)
    obtain ⟨x, hx, rfl⟩ := List.mem_map.1 (List.contains_iff_mem.1 hc)
    rw [(mem_numbered h).1 hx] at hq
    cases hq

end Partition

/-! ## The parts of the quotient -/

theorem quotient_states (h : d.IsValid) (hp : p.IsNumbered d.states) :
    (d.quotient p.classes).states = (List.range p.count).map Int.ofNat := by
  show Ascending.ofList ((representatives p.classes).map Prod.fst) = _
  rw [Partition.representatives_classes hp h.states_ascending, List.map_map]
  exact Ascending.ofList_eq_self (ascending_map_ofNat_range p.count)

theorem mem_quotient_states (h : d.IsValid) (hp : p.IsNumbered d.states) :
    s ∈ (d.quotient p.classes).states ↔ ∃ i < p.count, Int.ofNat i = s := by
  rw [quotient_states h hp]
  simp only [List.mem_map, List.mem_range]

theorem quotient_start (h : d.IsValid) (hp : p.IsNumbered d.states) :
    p.state? d.start = some (d.quotient p.classes).start := by
  obtain ⟨i, hi⟩ := (hp.mem_iff _).1 h.start_mem
  show _ = some ((classNumbers p.classes).getD d.start 0)
  rw [TreeMap.getD_eq_getD_getElem?,
    Partition.getElem?_classNumbers hp h.states_ascending, Partition.state?_of_index? hi]
  rfl

theorem mem_quotient_final (h : d.IsValid) (hp : p.IsNumbered d.states) :
    s ∈ (d.quotient p.classes).final ↔
      ∃ i < p.count, Int.ofNat i = s ∧ p.first d.states i ∈ d.final := by
  classical
  have hfinal : s ∈ (d.quotient p.classes).final ↔
      s ∈ (((representatives p.classes).filter fun x =>
        (TreeSet.ofList d.final compare).contains x.2).map Prod.fst) := Ascending.mem_ofList
  rw [hfinal, Partition.representatives_classes hp h.states_ascending, List.filter_map,
    List.map_map]
  simp only [List.mem_map, List.mem_filter, List.mem_range, Function.comp_apply,
    TreeSet.contains_ofList, List.contains_iff_mem]
  exact exists_congr fun i => by rw [and_assoc, and_comm (a := _ ∈ d.final)]

theorem mem_quotient_edges (h : d.IsValid) (hp : p.IsNumbered d.states) :
    ⟨s, a, t⟩ ∈ (d.quotient p.classes).edges ↔ ∃ i < p.count, Int.ofNat i = s ∧
      (d.delta (p.first d.states i) a).bind p.state? = some t := by
  have hedges : ⟨s, a, t⟩ ∈ (d.quotient p.classes).edges ↔
      (⟨s, a, t⟩ : Edge Symbol) ∈ (representatives p.classes).flatMap fun x =>
        d.alphabet.filterMap fun a => (d.delta x.2 a).bind fun r =>
          (classNumbers p.classes)[r]?.map fun j => ⟨x.1, a, j⟩ := Ascending.mem_ofList
  rw [hedges, Partition.representatives_classes hp h.states_ascending]
  simp only [Partition.getElem?_classNumbers hp h.states_ascending, List.mem_flatMap,
    List.mem_map, List.mem_range, List.mem_filterMap, Option.bind_eq_some_iff,
    Option.map_eq_some_iff]
  constructor
  · rintro ⟨_, ⟨i, hi, rfl⟩, b, hb, r, hr, u, hu, he⟩
    cases he
    exact ⟨i, hi, rfl, r, hr, hu⟩
  · rintro ⟨i, hi, rfl, r, hr, ht⟩
    exact ⟨_, ⟨i, hi, rfl⟩, a, (h.mem_of_delta hr).2.1, r, hr, t, ht, rfl⟩

theorem mem_quotient_alphabet (h : d.IsValid) (hp : p.IsNumbered d.states) :
    a ∈ (d.quotient p.classes).alphabet ↔ a ∈ d.alphabet := by
  refine mem_ofParts_alphabet rfl ?_
  rintro ⟨s, a, t⟩ he
  obtain ⟨i, -, -, ht⟩ := (mem_quotient_edges h hp).1 he
  obtain ⟨r, hr, -⟩ := Option.bind_eq_some_iff.1 ht
  exact (h.mem_of_delta hr).2.1

theorem quotient_isValid (h : d.IsValid) (hp : p.IsNumbered d.states) :
    (d.quotient p.classes).IsValid := by
  have hmem : ∀ {q s}, p.state? q = some s → s ∈ (d.quotient p.classes).states := by
    intro q s hq
    obtain ⟨i, hi, his⟩ := Partition.state?_eq_some_iff.1 hq
    exact (mem_quotient_states h hp).2 ⟨i, hp.lt_count q i hi, his⟩
  have hedge : ∀ {e}, e ∈ (d.quotient p.classes).edges → ∃ i < p.count, Int.ofNat i = e.source ∧
      (d.delta (p.first d.states i) e.label).bind p.state? = some e.target :=
    (mem_quotient_edges h hp).1
  refine ofParts_isValid_of_mem rfl (hmem (quotient_start h hp)) (fun s hs => ?_) (fun e he => ?_)
    fun e he f hf hsource hlabel => ?_
  · obtain ⟨i, hi, his, -⟩ := (mem_quotient_final h hp).1 hs
    exact (mem_quotient_states h hp).2 ⟨i, hi, his⟩
  · obtain ⟨i, hi, his, ht⟩ := hedge he
    obtain ⟨r, -, hr⟩ := Option.bind_eq_some_iff.1 ht
    exact ⟨(mem_quotient_states h hp).2 ⟨i, hi, his⟩, hmem hr⟩
  · obtain ⟨i, -, hi, ht⟩ := hedge he
    obtain ⟨j, -, hj, hu⟩ := hedge hf
    obtain rfl : i = j := Int.ofNat_inj.1 (hi.trans (hsource.trans hj.symm))
    rw [hlabel, hu] at ht
    exact (Option.some.inj ht).symm

/-! ## Runs of the quotient -/

section

variable (h : d.IsValid) (hp : p.IsNumbered d.states) (hs : d.IsStable p.Same)

include h hp hs

/-- A class goes where each of its members goes. -/
theorem quotient_delta (hq : p.state? q = some s) :
    (d.quotient p.classes).delta s a = (d.delta q a).bind p.state? := by
  obtain ⟨i, hi, rfl⟩ := Partition.state?_eq_some_iff.1 hq
  have hrel : (d.delta (p.first d.states i) a).bind p.state? = (d.delta q a).bind p.state? := by
    have hrel := hs.delta_rel _ _ (Partition.same_first hp hi) a
    generalize d.delta (p.first d.states i) a = x, d.delta q a = y at hrel
    cases hrel with
    | none => rfl
    | some hst => exact hst.state?_eq
  refine Option.ext fun t => ?_
  rw [(quotient_isValid h hp).delta_eq_some_iff, mem_quotient_edges h hp, ← hrel]
  constructor
  · rintro ⟨j, -, hj, ht⟩
    obtain rfl : j = i := Int.ofNat_inj.1 hj
    exact ht
  · exact fun ht => ⟨i, hp.lt_count q i hi, rfl, ht⟩

/-- A run of the quotient passes the classes of the states that the automaton passes. -/
theorem quotient_runFrom (hq : p.state? q = some s) :
    (d.quotient p.classes).runFrom s w = (d.runFrom q w).bind p.state? := by
  induction w generalizing q s with
  | nil => exact hq.symm
  | cons a w ih =>
    rw [runFrom_cons, runFrom_cons, quotient_delta h hp hs hq, Option.bind_assoc,
      Option.bind_assoc]
    cases hr : d.delta q a with
    | none => rfl
    | some r =>
      obtain ⟨j, hj⟩ := (hp.mem_iff r).1 (h.mem_of_delta hr).2.2
      have ht := Partition.state?_of_index? hj
      rw [Option.bind_some, Option.bind_some, ht]
      exact ih ht

theorem quotient_acceptsFrom (hq : p.state? q = some s) :
    (d.quotient p.classes).acceptsFrom s w = d.acceptsFrom q w := by
  rw [acceptsFrom, quotient_runFrom h hp hs hq, acceptsFrom]
  cases hr : d.runFrom q w with
  | none => rfl
  | some r =>
    obtain ⟨i, hi, -⟩ := Partition.state?_eq_some_iff.1 hq
    obtain ⟨j, hj⟩ := (hp.mem_iff r).1 (h.mem_of_runFrom ((hp.mem_iff q).2 ⟨i, hi⟩) hr)
    rw [Option.bind_some, Partition.state?_of_index? hj, Option.any_some, Option.any_some,
      Bool.eq_iff_iff, List.contains_iff_mem, List.contains_iff_mem, mem_quotient_final h hp,
      ← hs.final_iff _ _ (Partition.same_first hp hj)]
    constructor
    · rintro ⟨k, -, hk, hfinal⟩
      obtain rfl : k = j := Int.ofNat_inj.1 hk
      exact hfinal
    · exact fun hfinal => ⟨j, hp.lt_count r j hj, rfl, hfinal⟩

end

end RegularLanguage.DFA
