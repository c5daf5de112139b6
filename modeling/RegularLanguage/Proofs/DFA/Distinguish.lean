import Mathlib.Data.List.Perm.Subperm
import RegularLanguage.DFA.Distinguish
import RegularLanguage.Proofs.DFA.Complete
/-!
# Marking finds the pairs that some word tells apart

A pair is marked only if some word tells it apart: the symbol that leads it to a marked pair comes
before the word of that pair (`IsMarked.markPass`). A pass that marks nothing leaves marks that are
closed under the symbols, and there are no more passes that mark something than there are pairs
(`markAll_spec`). Closed marks hold every pair that some word tells apart, by induction on the word
(`mem_of_closed`), because a completed automaton leaves no symbol out.

| here | `relang` |
| --- | --- |
| `markPair` | what `distinguishable_pairs` does to a pair that is not marked |
-/

namespace RegularLanguage.DFA

open Std

variable {d : DFA} {q r s t : State} {a : Symbol} {w : Word} {x y : Pair} {marks marks' : Marks}
  {all : List Pair} {symbols : List Symbol} {m : Moves} {alphabet : List Symbol}

/-! ## Pairs -/

/-- The states of a pair are those that it was made of, in one order or the other. -/
theorem Pair.ofStates_cases (q r : State) :
    Pair.ofStates q r = ⟨q, r⟩ ∧ q ≤ r ∨ Pair.ofStates q r = ⟨r, q⟩ ∧ r < q := by
  unfold Pair.ofStates
  by_cases hle : q ≤ r
  · exact .inl ⟨if_pos hle, hle⟩
  · exact .inr ⟨if_neg hle, Int.lt_of_not_ge hle⟩

def TellsApart (d : DFA) (w : Word) (x : Pair) : Prop :=
  d.acceptsFrom x.first w ≠ d.acceptsFrom x.second w

theorem tellsApart_ofStates_iff :
    d.TellsApart w (Pair.ofStates q r) ↔ d.acceptsFrom q w ≠ d.acceptsFrom r w := by
  rcases Pair.ofStates_cases q r with ⟨he, -⟩ | ⟨he, -⟩ <;> rw [he]
  · exact Iff.rfl
  · exact ne_comm

theorem mem_pairs {qs : List State} (hasc : Ascending qs) :
    x ∈ pairs qs ↔ x.first ∈ qs ∧ x.second ∈ qs ∧ x.first < x.second := by
  induction qs with
  | nil => simp [pairs]
  | cons q qs ih =>
    obtain ⟨hq, hasc⟩ := List.pairwise_cons.1 hasc
    have hlt : ∀ r ∈ qs, q < r := fun r hr => Int.compare_eq_lt.1 (hq r hr)
    obtain ⟨s, t⟩ := x
    rw [pairs, List.mem_append, List.mem_map, ih hasc, List.mem_cons, List.mem_cons]
    dsimp only
    constructor
    · rintro (⟨r, hr, he⟩ | ⟨hs, ht, hst⟩)
      · cases he
        exact ⟨.inl rfl, .inr hr, hlt _ hr⟩
      · exact ⟨.inr hs, .inr ht, hst⟩
    · rintro ⟨rfl | hs, rfl | ht, hst⟩
      · exact absurd hst (Int.lt_irrefl _)
      · exact .inl ⟨t, ht, rfl⟩
      · exact absurd hst (Int.lt_asymm (hlt s hs))
      · exact .inr ⟨hs, ht, hst⟩

/-- Two different states make a pair, whichever comes first. -/
theorem ofStates_mem_pairs {qs : List State} (hasc : Ascending qs) (hq : q ∈ qs) (hr : r ∈ qs)
    (hne : q ≠ r) : Pair.ofStates q r ∈ pairs qs := by
  rcases Pair.ofStates_cases q r with ⟨he, hle⟩ | ⟨he, hlt⟩ <;> rw [he, mem_pairs hasc]
  · exact ⟨hq, hr, Int.lt_iff_le_and_ne.2 ⟨hle, hne⟩⟩
  · exact ⟨hr, hq, hlt⟩

/-! ## One pass -/

/-- Marks a pair if some symbol leads it to a marked one. -/
def markPair (m : Moves) (symbols : List Symbol) (marks : Marks) (x : Pair) : Marks :=
  if !marks.contains x && leadsToMark m symbols marks x then marks.insert x else marks

theorem markPass_eq : markPass m symbols all marks = all.foldl (markPair m symbols) marks := rfl

theorem leadsToMark_iff : leadsToMark m symbols marks x = true ↔
    ∃ a ∈ symbols, ∃ r s, m.next x.first a = some r ∧ m.next x.second a = some s ∧
      Pair.ofStates r s ∈ marks := by
  rw [leadsToMark, List.any_eq_true]
  refine exists_congr fun a => and_congr_right fun _ => ?_
  cases m.next x.first a <;> cases m.next x.second a <;> simp

/-- A pair is left alone if it is marked already or no symbol leads it to a marked one. Otherwise
there is one mark more. -/
theorem markPair_cases (m : Moves) (symbols : List Symbol) (marks : Marks) (x : Pair) :
    (markPair m symbols marks x = marks ∧ (leadsToMark m symbols marks x = true → x ∈ marks)) ∨
      leadsToMark m symbols marks x = true ∧ markPair m symbols marks x = marks.insert x ∧
        (marks.insert x).size = marks.size + 1 := by
  unfold markPair
  cases hx : marks.contains x with
  | true => exact .inl ⟨by simp, fun _ => hx⟩
  | false =>
    cases hleads : leadsToMark m symbols marks x with
    | false => exact .inl ⟨by simp, by simp⟩
    | true => exact .inr ⟨rfl, by simp, by simp [TreeSet.size_insert, hx]⟩

/-- A pass adds a mark, or it changes nothing and every pair that some symbol leads to a marked one
is marked. -/
theorem markPass_cases (m : Moves) (symbols : List Symbol) (all : List Pair) (marks : Marks) :
    marks.size < (markPass m symbols all marks).size ∨
      markPass m symbols all marks = marks ∧
        ∀ x ∈ all, leadsToMark m symbols marks x = true → x ∈ marks := by
  rw [markPass_eq]
  induction all generalizing marks with
  | nil => exact .inr ⟨rfl, by simp⟩
  | cons x all ih =>
    rw [List.foldl_cons]
    rcases markPair_cases m symbols marks x with ⟨heq, hx⟩ | ⟨-, heq, hsize⟩
    · rw [heq, List.forall_mem_cons]
      exact (ih marks).imp_right fun ⟨hsame, hall⟩ => ⟨hsame, hx, hall⟩
    · rw [heq]
      refine .inl ?_
      rcases ih (marks.insert x) with hlt | ⟨hsame, -⟩
      · omega
      · rw [hsame]
        omega

/-- What holds of the marks at any time: some pairs are marked that some word tells apart. -/
def IsMarked (d : DFA) (all : List Pair) (marks : Marks) : Prop :=
  ∀ x ∈ marks, x ∈ all ∧ ∃ w, d.TellsApart w x

/-- The word that tells apart where a symbol leads, after the symbol. -/
theorem IsMarked.exists_tellsApart (h : d.IsMarked all marks)
    (hleads : leadsToMark d.outgoing symbols marks x = true) : ∃ w, d.TellsApart w x := by
  obtain ⟨a, -, r, s, hr, hs, hmark⟩ := leadsToMark_iff.1 hleads
  obtain ⟨-, w, hw⟩ := h _ hmark
  have hr' : d.delta x.first a = some r := hr
  have hs' : d.delta x.second a = some s := hs
  refine ⟨a :: w, ?_⟩
  rw [TellsApart, acceptsFrom_cons, acceptsFrom_cons, hr', hs']
  exact tellsApart_ofStates_iff.1 hw

theorem IsMarked.markPair (h : d.IsMarked all marks) (hx : x ∈ all) :
    d.IsMarked all (markPair d.outgoing symbols marks x) := by
  rcases markPair_cases d.outgoing symbols marks x with ⟨heq, -⟩ | ⟨hleads, heq, -⟩ <;> rw [heq]
  · exact h
  · intro y hy
    rcases TreeSet.mem_insert.1 hy with hyx | hy
    · obtain rfl := LawfulEqOrd.compare_eq_iff_eq.1 hyx
      exact ⟨hx, h.exists_tellsApart hleads⟩
    · exact h y hy

theorem IsMarked.markPass (h : d.IsMarked all marks) (symbols : List Symbol) :
    d.IsMarked all (markPass d.outgoing symbols all marks) :=
  List.foldlRecOn all (DFA.markPair d.outgoing symbols) h fun _ hmarks _ hx => hmarks.markPair hx

/-- No mark is taken back. -/
theorem mem_markPass (hx : x ∈ marks) : x ∈ markPass m symbols all marks := by
  refine List.foldlRecOn all (markPair m symbols) (motive := fun marks => x ∈ marks) hx
    fun marks hmarks y _ => ?_
  rcases markPair_cases m symbols marks y with ⟨heq, -⟩ | ⟨-, heq, -⟩ <;> rw [heq]
  · exact hmarks
  · exact TreeSet.mem_insert.2 (.inr hmarks)

/-! ## All passes -/

theorem IsMarked.size_le (h : d.IsMarked all marks) : marks.size ≤ all.length := by
  have hnodup : marks.toList.Nodup := Ascending.nodup TreeSet.ordered_toList
  have hsub : marks.toList ⊆ all := fun x hx => (h x (TreeSet.mem_toList.1 hx)).1
  rw [← TreeSet.length_toList]
  exact (hnodup.subperm hsub).length_le

/-- With a pass for each pair that may still be marked, marking ends: every pair that some symbol
leads to a marked one is then marked. -/
theorem markAll_spec (symbols : List Symbol) (fuel : Nat) (h : d.IsMarked all marks)
    (hfuel : all.length < fuel + marks.size) :
    ∃ marks', markAll d.outgoing symbols all fuel marks = some marks' ∧ d.IsMarked all marks' ∧
      (∀ x ∈ marks, x ∈ marks') ∧
      ∀ x ∈ all, leadsToMark d.outgoing symbols marks' x = true → x ∈ marks' := by
  induction fuel generalizing marks with
  | zero =>
    have := h.size_le
    omega
  | succ fuel ih =>
    have hstep : markAll d.outgoing symbols all (fuel + 1) marks =
        if (markPass d.outgoing symbols all marks).size = marks.size then some marks
        else markAll d.outgoing symbols all fuel (markPass d.outgoing symbols all marks) := rfl
    rw [hstep]
    rcases markPass_cases d.outgoing symbols all marks with hlt | ⟨hsame, hclosed⟩
    · rw [if_neg (Nat.ne_of_gt hlt)]
      obtain ⟨marks', heq, hmarked, hkept, hclosed⟩ := ih (h.markPass symbols) (by omega)
      exact ⟨marks', heq, hmarked, fun x hx => hkept x (mem_markPass hx), hclosed⟩
    · rw [if_pos (by rw [hsame])]
      exact ⟨marks, rfl, h, fun x hx => hx, hclosed⟩

/-- In a completed automaton, marks that are closed under the symbols hold every pair that some word
tells apart, if they hold those of which one state is final. -/
theorem mem_of_closed (h : d.IsValid)
    (hbase : ∀ x ∈ pairs (d.complete alphabet).states,
      (d.complete alphabet).TellsApart [] x → x ∈ marks)
    (hclosed : ∀ x ∈ pairs (d.complete alphabet).states,
      leadsToMark (d.complete alphabet).outgoing (d.complete alphabet).alphabet marks x = true →
        x ∈ marks)
    (hx : x ∈ pairs (d.complete alphabet).states) (hw : (d.complete alphabet).TellsApart w x) :
    x ∈ marks := by
  have hc : (d.complete alphabet).IsValid := complete_isValid h
  induction w generalizing x with
  | nil => exact hbase x hx hw
  | cons a w ih =>
    obtain ⟨hfirst, hsecond, -⟩ := (mem_pairs hc.states_ascending).1 hx
    rw [TellsApart, acceptsFrom_cons, acceptsFrom_cons] at hw
    -- the symbol is known, for under others neither state has a move
    have ha : a ∈ d.alphabet ∨ a ∈ alphabet := by
      refine Classical.byContradiction fun ha => hw ?_
      have hnone : ∀ {q}, q ∈ (d.complete alphabet).states →
          (d.complete alphabet).delta q a = none := fun hq =>
        Option.eq_none_iff_forall_ne_some.2 fun r hr =>
          ha ((exists_complete_delta_iff h hq).1 ⟨r, hr⟩)
      rw [hnone hfirst, hnone hsecond]
    obtain ⟨r, hr⟩ := (exists_complete_delta_iff h hfirst).2 ha
    obtain ⟨s, hs⟩ := (exists_complete_delta_iff h hsecond).2 ha
    rw [hr, hs, Option.any_some, Option.any_some] at hw
    have hrs : r ≠ s := by
      rintro rfl
      exact hw rfl
    have hmark : Pair.ofStates r s ∈ marks :=
      ih (ofStates_mem_pairs hc.states_ascending (hc.mem_of_delta hr).2.2 (hc.mem_of_delta hs).2.2
        hrs) (tellsApart_ofStates_iff.2 hw)
    exact hclosed x hx
      (leadsToMark_iff.2 ⟨a, (mem_complete_alphabet h).2 ha, r, s, hr, hs, hmark⟩)

/-! ## The pairs of an automaton -/

/-- The pairs of the completed automaton that are marked at the beginning. -/
def basePairs (d : DFA) : List Pair :=
  (pairs (d.complete []).states).filter fun x =>
    (TreeSet.ofList (d.complete []).final compare).contains x.first !=
      (TreeSet.ofList (d.complete []).final compare).contains x.second

/-- The pairs marked at the beginning are those that the empty word tells apart. -/
theorem mem_basePairs : x ∈ d.basePairs ↔
    x ∈ pairs (d.complete []).states ∧ (d.complete []).TellsApart [] x := by
  classical
  rw [basePairs, List.mem_filter, TreeSet.contains_ofList, TreeSet.contains_ofList, bne_iff_ne]
  exact Iff.rfl

/-- Marking ends with the pairs that some word tells apart. -/
theorem exists_markAll_eq (h : d.IsValid) : ∃ marks,
    markAll (d.complete []).outgoing (d.complete []).alphabet (pairs (d.complete []).states)
        ((pairs (d.complete []).states).length + 1) (TreeSet.ofList d.basePairs compare) =
      some marks ∧
    ∀ x, x ∈ marks ↔ x ∈ pairs (d.complete []).states ∧ ∃ w, (d.complete []).TellsApart w x := by
  have hbase : ∀ x, x ∈ TreeSet.ofList d.basePairs compare ↔
      x ∈ pairs (d.complete []).states ∧ (d.complete []).TellsApart [] x := by
    intro x
    rw [← mem_basePairs]
    simp [TreeSet.mem_ofList]
  have hmarked : (d.complete []).IsMarked (pairs (d.complete []).states)
      (TreeSet.ofList d.basePairs compare) :=
    fun x hx => ((hbase x).1 hx).imp_right fun hw => ⟨[], hw⟩
  obtain ⟨marks, heq, hmarks, hkept, hclosed⟩ := markAll_spec (d.complete []).alphabet
    ((pairs (d.complete []).states).length + 1) hmarked (by omega)
  refine ⟨marks, heq, fun x => ⟨hmarks x, ?_⟩⟩
  rintro ⟨hx, w, hw⟩
  exact mem_of_closed h (fun y hy hnil => hkept y ((hbase y).2 ⟨hy, hnil⟩)) hclosed hx hw

theorem ascending_distinguishablePairs (d : DFA) : Ascending d.distinguishablePairs := by
  unfold distinguishablePairs
  dsimp only
  split
  · exact List.Pairwise.filter _ TreeSet.ordered_toList
  · exact List.Pairwise.nil

/-- The pairs that are found are those of states that some word tells apart. -/
theorem mem_distinguishablePairs (h : d.IsValid) :
    x ∈ d.distinguishablePairs ↔ x ∈ pairs d.states ∧ ∃ w, d.TellsApart w x := by
  classical
  obtain ⟨marks, heq, hmarks⟩ := exists_markAll_eq h
  have hpairs : d.distinguishablePairs = marks.toList.filter fun x =>
      (TreeSet.ofList d.states compare).contains x.first &&
        (TreeSet.ofList d.states compare).contains x.second := by
    unfold distinguishablePairs
    simp only [← basePairs.eq_def, heq]
  have hwords : ∀ w, (d.complete []).TellsApart w x ↔ d.TellsApart w x := fun w => by
    rw [TellsApart, complete_acceptsFrom h, complete_acceptsFrom h, TellsApart]
  rw [hpairs, List.mem_filter, TreeSet.mem_toList, hmarks,
    mem_pairs (complete_isValid h).states_ascending, mem_pairs h.states_ascending]
  simp only [hwords, TreeSet.contains_ofList, Bool.and_eq_true, List.contains_iff_mem,
    mem_complete_states]
  constructor
  · rintro ⟨⟨⟨-, -, hlt⟩, hw⟩, hfirst, hsecond⟩
    exact ⟨⟨hfirst, hsecond, hlt⟩, hw⟩
  · rintro ⟨⟨hfirst, hsecond, hlt⟩, hw⟩
    exact ⟨⟨⟨.inl hfirst, .inl hsecond, hlt⟩, hw⟩, hfirst, hsecond⟩

/-- Two different states make a pair that is found exactly when some word is accepted from one of
them only. No other pair is found, in particular none with the state that completion adds, and no
pair is listed twice. -/
theorem distinguishablePairs_exact (d : DFA) (h : d.IsValid) :
    (∀ q ∈ d.states, ∀ r ∈ d.states, q ≠ r →
      (Pair.ofStates q r ∈ d.distinguishablePairs ↔
        ∃ w, d.acceptsFrom q w ≠ d.acceptsFrom r w)) ∧
      (∀ x ∈ d.distinguishablePairs, (∃ q ∈ d.states, ∃ r ∈ d.states, q ≠ r ∧
        Pair.ofStates q r = x) ∧ x.first ≠ d.freshState ∧ x.second ≠ d.freshState) ∧
      Ascending d.distinguishablePairs := by
  refine ⟨fun q hq r hr hne => ?_, fun x hx => ?_, ascending_distinguishablePairs d⟩
  · rw [mem_distinguishablePairs h, and_iff_right (ofStates_mem_pairs h.states_ascending hq hr hne)]
    exact exists_congr fun w => tellsApart_ofStates_iff
  · obtain ⟨hfirst, hsecond, hlt⟩ :=
      (mem_pairs h.states_ascending).1 ((mem_distinguishablePairs h).1 hx).1
    refine ⟨⟨x.first, hfirst, x.second, hsecond, Int.ne_of_lt hlt, ?_⟩, ?_, ?_⟩
    · exact if_pos (Int.le_of_lt hlt)
    · exact fun he => freshState_not_mem (he ▸ hfirst)
    · exact fun he => freshState_not_mem (he ▸ hsecond)

/-- A partial automaton with a state that accepts nothing and a state that is not reached. -/
def stray : DFA :=
  ofParts [0, 1, 2, 7] 0 [1] [⟨0, "a", 1⟩, ⟨1, "b", 2⟩, ⟨7, "a", 1⟩] [] []

theorem stray_isValid : stray.IsValid :=
  ofParts_isValid (by decide) (by decide) (by decide) (by decide)

theorem distinguishablePairs_exact_stray : stray.IsValid ∧
    0 ∈ stray.states ∧ 7 ∈ stray.states ∧ (0 : State) ≠ 7 ∧
    (Pair.ofStates 0 7 ∈ stray.distinguishablePairs ↔
      ∃ w, stray.acceptsFrom 0 w ≠ stray.acceptsFrom 7 w) ∧
    ⟨0, 2⟩ ∈ stray.distinguishablePairs ∧
    (∃ q ∈ stray.states, ∃ r ∈ stray.states, q ≠ r ∧ Pair.ofStates q r = ⟨0, 2⟩) := by
  obtain ⟨hiff, hfound, -⟩ := distinguishablePairs_exact stray stray_isValid
  have hmem : ⟨0, 2⟩ ∈ stray.distinguishablePairs := by decide
  exact ⟨stray_isValid, by decide, by decide, by decide,
    hiff 0 (by decide) 7 (by decide) (by decide), hmem, (hfound _ hmem).1⟩

example : stray.distinguishablePairs = [⟨0, 1⟩, ⟨0, 2⟩, ⟨1, 2⟩, ⟨1, 7⟩, ⟨2, 7⟩] := by decide

end RegularLanguage.DFA
