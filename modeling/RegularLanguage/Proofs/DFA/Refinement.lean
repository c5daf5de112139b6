import Mathlib.Data.Fintype.EquivFin
import RegularLanguage.Proofs.DFA.Partition
import RegularLanguage.Proofs.DFA.Run
/-!
# Refinement ends in the coarsest stable partition

A relation on states is stable when no symbol leads related states apart (`IsStable`). A round
splits a class only where every stable relation does, and it adds a class unless the partition was
stable already. There are no more classes than states, so the rounds that are allowed are enough
(`refine_spec`).

| here | `relang` |
| --- | --- |
| `round` | once through the loop of `_refine` |
-/

namespace RegularLanguage.DFA

variable {d : DFA} {q r : State} {a : Symbol} {w : Word} {R : State → State → Prop}

/-- Where both moves lead, one relation may be put for another. -/
theorem rel_mono {S : State → State → Prop} {x y : Option State} (h : Option.Rel R x y)
    (hRS : ∀ q r, x = some q → y = some r → R q r → S q r) : Option.Rel S x y := by
  cases h with
  | none => exact .none
  | some hqr => exact .some (hRS _ _ rfl rfl hqr)

/-- Related states are both final or both not, and a symbol leads them to related states or leads
neither anywhere. -/
structure IsStable (d : DFA) (R : State → State → Prop) : Prop where
  final_iff : ∀ q r, R q r → (q ∈ d.final ↔ r ∈ d.final)
  delta_rel : ∀ q r, R q r → ∀ a, Option.Rel R (d.delta q a) (d.delta r a)

/-- No word tells apart states that a stable relation relates. -/
theorem IsStable.acceptsFrom_eq (h : d.IsStable R) (hR : R q r) :
    d.acceptsFrom q w = d.acceptsFrom r w := by
  induction w generalizing q r with
  | nil =>
    rw [Bool.eq_iff_iff, acceptsFrom_nil_iff, acceptsFrom_nil_iff]
    exact h.final_iff q r hR
  | cons a w ih =>
    rw [acceptsFrom_cons, acceptsFrom_cons]
    have hrel := h.delta_rel q r hR a
    generalize d.delta q a = x, d.delta r a = y at hrel
    cases hrel with
    | none => rfl
    | some hst => exact ih hst

namespace Partition

variable {p p' : Partition} {states : List State} {i j : Nat}

def Same (p : Partition) (q r : State) : Prop := ∃ i, p.index? q = some i ∧ p.index? r = some i

theorem same_iff_of_mem (h : p.IsNumbered states) (hq : q ∈ states) :
    p.Same q r ↔ p.index? q = p.index? r := by
  obtain ⟨i, hi⟩ := (h.mem_iff q).1 hq
  constructor
  · rintro ⟨j, hj, hr⟩
    rw [hj, hr]
  · exact fun he => ⟨i, hi, he ▸ hi⟩

theorem Same.mem (h : p.IsNumbered states) (hs : p.Same q r) : q ∈ states ∧ r ∈ states := by
  obtain ⟨i, hq, hr⟩ := hs
  exact ⟨(h.mem_iff q).2 ⟨i, hq⟩, (h.mem_iff r).2 ⟨i, hr⟩⟩

/-- The number of a class is determined by any of its members. -/
theorem Same.index?_eq (hs : p.Same q r) (hq : p.index? q = some i) : p.index? r = some i := by
  obtain ⟨j, hj, hr⟩ := hs
  rw [← hq, hj, hr]

/-! ## Counting classes -/

theorem IsNumbered.count_le_length (h : p.IsNumbered states) : p.count ≤ states.length := by
  classical
  have hsurj : Set.SurjOn (fun q => (p.index? q).getD 0) states.toFinset
      (Finset.range p.count) := by
    intro i hi
    obtain ⟨q, hq⟩ := h.exists_of_lt i (Finset.mem_range.1 hi)
    refine ⟨q, ?_, by simp [hq]⟩
    exact List.mem_toFinset.2 ((h.mem_iff q).2 ⟨i, hq⟩)
  calc p.count = (Finset.range p.count).card := (Finset.card_range _).symm
    _ ≤ states.toFinset.card := Finset.card_le_card_of_surjOn _ hsurj
    _ ≤ states.length := List.toFinset_card_le states

/-- A finer partition has a class inside each class; the map to the class around is onto. -/
theorem exists_coarsening (h : p.IsNumbered states) (h' : p'.IsNumbered states)
    (hsub : ∀ q r, p'.Same q r → p.Same q r) :
    ∃ f : Fin p'.count → Fin p.count, Function.Surjective f ∧
      ∀ q (i : Fin p'.count), p'.index? q = some i.val → p.index? q = some (f i).val := by
  have hclass : ∀ i : Fin p'.count, ∃ j : Fin p.count, ∀ q, p'.index? q = some i.val →
      p.index? q = some j.val := by
    intro i
    obtain ⟨q, hq⟩ := h'.exists_of_lt i i.isLt
    obtain ⟨j, hj⟩ := (h.mem_iff q).1 ((h'.mem_iff q).2 ⟨i, hq⟩)
    exact ⟨⟨j, h.lt_count q j hj⟩, fun r hr => (hsub q r ⟨i, hq, hr⟩).index?_eq hj⟩
  choose f hf using hclass
  refine ⟨f, fun j => ?_, fun q i => hf i q⟩
  obtain ⟨q, hq⟩ := h.exists_of_lt j j.isLt
  obtain ⟨i, hi⟩ := (h'.mem_iff q).1 ((h.mem_iff q).2 ⟨j, hq⟩)
  refine ⟨⟨i, h'.lt_count q i hi⟩, Fin.ext (Option.some.inj ?_)⟩
  rw [← hf ⟨i, h'.lt_count q i hi⟩ q hi, hq]

theorem count_le_count (h : p.IsNumbered states) (h' : p'.IsNumbered states)
    (hsub : ∀ q r, p'.Same q r → p.Same q r) : p.count ≤ p'.count := by
  obtain ⟨f, hf, -⟩ := exists_coarsening h h' hsub
  simpa using Fintype.card_le_of_surjective f hf

/-- A finer partition with as many classes splits nothing. -/
theorem same_of_count_eq (h : p.IsNumbered states) (h' : p'.IsNumbered states)
    (hsub : ∀ q r, p'.Same q r → p.Same q r) (hcount : p'.count = p.count) (hs : p.Same q r) :
    p'.Same q r := by
  obtain ⟨f, hsurj, hf⟩ := exists_coarsening h h' hsub
  have hinj : Function.Injective f :=
    ((Fintype.bijective_iff_surjective_and_card f).2 ⟨hsurj, by simp [hcount]⟩).1
  obtain ⟨hq, hr⟩ := hs.mem h
  obtain ⟨i, hi⟩ := (h'.mem_iff q).1 hq
  obtain ⟨j, hj⟩ := (h'.mem_iff r).1 hr
  have hfi := hf q ⟨i, h'.lt_count q i hi⟩ hi
  have hfj := hf r ⟨j, h'.lt_count r j hj⟩ hj
  have hij := hinj (Fin.ext (Option.some.inj ((hs.index?_eq hfi).symm.trans hfj)))
  obtain rfl : i = j := congrArg Fin.val hij
  exact ⟨i, hi, hj⟩

/-! ## One round -/

theorem signature_eq_iff {m : Moves} {symbols : List Symbol} :
    p.signature m symbols q = p.signature m symbols r ↔ p.index? q = p.index? r ∧
      ∀ a ∈ symbols, (m.next q a).bind p.index? = (m.next r a).bind p.index? := by
  rw [signature, signature, List.cons.injEq, List.map_inj_left]
  rfl

end Partition

section

variable {p : Partition}

/-- The partition after one more round. -/
def round (d : DFA) (p : Partition) : Partition :=
  .byKey d.states (p.signature d.outgoing d.alphabet)

theorem round_isNumbered (h : d.IsValid) : (d.round p).IsNumbered d.states :=
  Partition.byKey_isNumbered h.states_ascending

/-- The classes of two moves agree when both are missing or both lead into one class. -/
theorem bind_index?_eq_iff (h : d.IsValid) (hp : p.IsNumbered d.states) :
    (d.delta q a).bind p.index? = (d.delta r a).bind p.index? ↔
      Option.Rel p.Same (d.delta q a) (d.delta r a) := by
  have hknown : ∀ {q s}, d.delta q a = some s → ∃ i, p.index? s = some i :=
    fun hs => (hp.mem_iff _).1 (h.mem_of_delta hs).2.2
  cases hq : d.delta q a with
  | none =>
    cases hr : d.delta r a with
    | none => exact iff_of_true rfl .none
    | some t =>
      obtain ⟨j, hj⟩ := hknown hr
      exact iff_of_false (by simp [hj]) (by rintro ⟨⟩)
  | some s =>
    obtain ⟨i, hi⟩ := hknown hq
    cases hr : d.delta r a with
    | none => exact iff_of_false (by simp [hi]) (by rintro ⟨⟩)
    | some t =>
      rw [Option.bind_some, Option.bind_some, Option.rel_some_some]
      exact (Partition.same_iff_of_mem hp ((hp.mem_iff s).2 ⟨i, hi⟩)).symm

/-- A round keeps two states together when their class agrees, and so do the classes to which each
symbol leads. -/
theorem round_same_iff (h : d.IsValid) (hp : p.IsNumbered d.states) (hq : q ∈ d.states)
    (hr : r ∈ d.states) : (d.round p).Same q r ↔
      p.Same q r ∧ ∀ a, Option.Rel p.Same (d.delta q a) (d.delta r a) := by
  have hkey : (d.round p).index? q = (d.round p).index? r ↔ _ :=
    Partition.byKey_index?_eq_iff h.states_ascending hq hr
  rw [Partition.same_iff_of_mem (round_isNumbered h) hq, hkey, Partition.signature_eq_iff,
    Partition.same_iff_of_mem hp hq]
  refine and_congr_right fun _ => ⟨fun hall a => ?_, fun hall a _ => ?_⟩
  · rw [← bind_index?_eq_iff h hp]
    by_cases ha : a ∈ d.alphabet
    · exact hall a ha
    · have hnone : ∀ s, d.delta s a = none := fun s =>
        Option.eq_none_iff_forall_ne_some.2 fun t ht => ha (h.mem_of_delta ht).2.1
      rw [hnone, hnone]
  · exact (bind_index?_eq_iff h hp).2 (hall a)

/-! ## All rounds -/

/-- What each round starts from: final states are apart from others, and what a stable relation
relates is in one class. -/
structure IsCoarse (d : DFA) (p : Partition) : Prop where
  numbered : p.IsNumbered d.states
  final_iff : ∀ q r, p.Same q r → (q ∈ d.final ↔ r ∈ d.final)
  same_of_stable : ∀ R, d.IsStable R → ∀ q ∈ d.states, ∀ r ∈ d.states, R q r → p.Same q r

theorem initialPartition_isCoarse (h : d.IsValid) : d.IsCoarse d.initialPartition := by
  classical
  have hnum : d.initialPartition.IsNumbered d.states :=
    Partition.byKey_isNumbered h.states_ascending
  have hsame : ∀ {q r}, q ∈ d.states → r ∈ d.states →
      (d.initialPartition.Same q r ↔ (q ∈ d.final ↔ r ∈ d.final)) := by
    intro q r hq hr
    have hkey : d.initialPartition.index? q = d.initialPartition.index? r ↔ _ :=
      Partition.byKey_index?_eq_iff h.states_ascending hq hr
    rw [Partition.same_iff_of_mem hnum hq, hkey, Std.TreeSet.contains_ofList,
      Std.TreeSet.contains_ofList, ← List.contains_iff_mem, ← List.contains_iff_mem,
      ← Bool.eq_iff_iff]
    cases d.final.contains q <;> cases d.final.contains r <;> decide
  exact ⟨hnum, fun q r hs => (hsame (hs.mem hnum).1 (hs.mem hnum).2).1 hs,
    fun R hR q hq r hr hqr => (hsame hq hr).2 (hR.final_iff q r hqr)⟩

theorem round_same (h : d.IsValid) (hp : p.IsNumbered d.states) (hs : (d.round p).Same q r) :
    p.Same q r ∧ ∀ a, Option.Rel p.Same (d.delta q a) (d.delta r a) := by
  obtain ⟨hq, hr⟩ := hs.mem (round_isNumbered h)
  exact (round_same_iff h hp hq hr).1 hs

theorem IsCoarse.round (h : d.IsValid) (hp : d.IsCoarse p) : d.IsCoarse (d.round p) := by
  refine ⟨round_isNumbered h, fun q r hs => hp.final_iff q r (round_same h hp.numbered hs).1,
    fun R hR q hq r hr hqr => ?_⟩
  refine (round_same_iff h hp.numbered hq hr).2 ⟨hp.same_of_stable R hR q hq r hr hqr, fun a => ?_⟩
  exact rel_mono (hR.delta_rel q r hqr a) fun s t hs ht hst =>
    hp.same_of_stable R hR s (h.mem_of_delta hs).2.2 t (h.mem_of_delta ht).2.2 hst

/-- A round that adds no class leaves a stable partition. -/
theorem IsCoarse.isStable_round (h : d.IsValid) (hp : d.IsCoarse p)
    (hcount : (d.round p).count = p.count) : d.IsStable (d.round p).Same := by
  refine ⟨(hp.round h).final_iff, fun q r hs a => ?_⟩
  refine rel_mono ((round_same h hp.numbered hs).2 a) fun s t _ _ hst => ?_
  exact Partition.same_of_count_eq hp.numbered (round_isNumbered h)
    (fun q r hs => (round_same h hp.numbered hs).1) hcount hst

/-- With a round for each class that may still be added, refinement ends, in the coarsest stable
partition. -/
theorem refine_spec (h : d.IsValid) (fuel : Nat) (hp : d.IsCoarse p)
    (hfuel : d.states.length < fuel + p.count) :
    ∃ p', refine d.states d.outgoing d.alphabet fuel p = some p' ∧ d.IsCoarse p' ∧
      d.IsStable p'.Same := by
  induction fuel generalizing p with
  | zero =>
    have := hp.numbered.count_le_length
    omega
  | succ fuel ih =>
    have hstep : refine d.states d.outgoing d.alphabet (fuel + 1) p =
        if (d.round p).count = p.count then some (d.round p)
        else refine d.states d.outgoing d.alphabet fuel (d.round p) := rfl
    rw [hstep]
    by_cases hcount : (d.round p).count = p.count
    · rw [if_pos hcount]
      exact ⟨_, rfl, hp.round h, hp.isStable_round h hcount⟩
    · rw [if_neg hcount]
      refine ih (hp.round h) ?_
      have := Partition.count_le_count hp.numbered (round_isNumbered h)
        fun q r hs => (round_same h hp.numbered hs).1
      omega

/-- The classes are those of the coarsest stable partition. -/
theorem exists_stateClasses_eq (h : d.IsValid) : ∃ p : Partition, d.IsCoarse p ∧
    d.IsStable p.Same ∧ d.stateClasses = p.classes := by
  obtain ⟨p, hp, hcoarse, hstable⟩ := refine_spec h (d.states.length + 1)
    (initialPartition_isCoarse h) (by omega)
  exact ⟨p, hcoarse, hstable, by rw [stateClasses, hp]⟩

end

end RegularLanguage.DFA
