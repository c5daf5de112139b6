import Mathlib.Data.List.Sublists
import RegularLanguage.DFA.Subset
import RegularLanguage.Proofs.DFA.Shortlex
import RegularLanguage.Proofs.NFA.Simulation
import RegularLanguage.Proofs.Search.Discovery
/-!
# Subset construction

There are no more sets of states than the search has room for, so it finds every set that some word
leads to. A state of the deterministic automaton goes where its set goes, and accepts what the set
accepts (`determinize_acceptsFrom`). States are numbered in the order of the first words that lead
to them (`determinize_isShortlex`).
-/

namespace RegularLanguage.NFA

open Std

variable {n : NFA} {q : State} {s t : State} {a : Symbol} {w : Word} {qs rs : List State}
  {symbols alphabet : List Symbol} {complete : Bool} {i j : Nat}

/-! ## The search for sets -/

@[simp]
theorem mem_subsetMoves : (a, rs) ∈ subsetMoves n.moves symbols complete qs ↔
    a ∈ symbols ∧ n.step qs (some a) = rs ∧ (rs = [] → complete = true) := by
  have hstep : n.moves.step qs (some a) = n.step qs (some a) := rfl
  rw [subsetMoves, List.mem_filterMap]
  constructor
  · rintro ⟨b, hb, hm⟩
    dsimp only at hm
    split at hm
    · cases hm
    · rename_i hkeep
      cases hm
      refine ⟨hb, rfl, fun hempty => ?_⟩
      simpa [hempty] using hkeep
  · rintro ⟨ha, rfl, hkeep⟩
    refine ⟨a, ha, ?_⟩
    dsimp only
    rw [hstep, if_neg]
    simpa using hkeep

theorem pairwise_subsetMoves {m : Moves} (hasc : Ascending symbols) :
    (subsetMoves m symbols complete qs).Pairwise fun x y => compare x.1 y.1 = .lt := by
  refine List.Pairwise.filterMap _ (fun a b hab x hx y hy => ?_) hasc
  dsimp only at hx hy
  split at hx <;> cases hx
  split at hy <;> cases hy
  exact hab

/-- A set of states is one of the sublists of all states. -/
theorem IsSet.mem_sublists (h : n.IsValid) (hqs : n.IsSet qs) : qs ∈ n.states.sublists := by
  have heq : qs = n.states.filter fun q => qs.contains q := by
    refine Ascending.ext hqs.ascending (h.states_ascending.filter _) fun q => ?_
    rw [List.mem_filter, List.contains_iff_mem]
    exact (and_iff_right_of_imp (hqs.mem_states q)).symm
  rw [List.mem_sublists, heq]
  exact List.filter_sublist

theorem closure_start_mem_sublists (h : n.IsValid) : n.closure [n.start] ∈ n.states.sublists :=
  (isSet_closure h fun _ hq => List.mem_singleton.1 hq ▸ h.start_mem).mem_sublists h

theorem mem_sublists_of_mem_subsetMoves (h : n.IsValid) {m : Symbol × List State}
    (hm : m ∈ subsetMoves n.moves symbols complete qs) : m.2 ∈ n.states.sublists := by
  obtain ⟨-, hrs, -⟩ := mem_subsetMoves.1 hm
  exact hrs ▸ (isSet_step h _).mem_sublists h

theorem length_sublists_states (n : NFA) :
    n.states.sublists.length ≤ Nat.pow 2 n.states.length :=
  Nat.le_of_eq (List.length_sublists _)

theorem discoverSubsets_isBreadthFirst (h : n.IsValid) (hasc : Ascending symbols) :
    (n.discoverSubsets symbols complete).IsBreadthFirst
      (subsetMoves n.moves symbols complete) (n.closure [n.start]) :=
  Discovery.ofStart_isBreadthFirst n.states.sublists (fun _ => pairwise_subsetMoves hasc)
    (closure_start_mem_sublists h) (fun _ _ _ => mem_sublists_of_mem_subsetMoves h)
    n.length_sublists_states

/-! ## The parts of the deterministic automaton -/

/-- The sets that become states, and the moves between them. -/
def subsets (n : NFA) (alphabet : List Symbol) (complete : Bool) :
    Discovery (List State) Symbol :=
  n.discoverSubsets (Ascending.ofList (n.alphabet ++ alphabet)) complete

theorem subsets_isBreadthFirst (h : n.IsValid) (alphabet : List Symbol) (complete : Bool) :
    (n.subsets alphabet complete).IsBreadthFirst
      (subsetMoves n.moves (Ascending.ofList (n.alphabet ++ alphabet)) complete)
      (n.closure [n.start]) :=
  discoverSubsets_isBreadthFirst h (Ascending.ascending_ofList _)

theorem determinize_states : (n.determinize alphabet complete).states =
    (List.range (n.subsets alphabet complete).found.size).map Int.ofNat := by
  have hraw : ((n.subsets alphabet complete).found.keys.toList.mapIdx fun i qs =>
      (Int.ofNat i, qs)).map Prod.fst =
        (List.range (n.subsets alphabet complete).found.size).map Int.ofNat :=
    List.ext_getElem (by simp [Numbering.size]) (by simp)
  show Ascending.ofList (((n.subsets alphabet complete).found.keys.toList.mapIdx fun i qs =>
    (Int.ofNat i, qs)).map Prod.fst) = _
  rw [hraw]
  exact Ascending.ofList_eq_self (ascending_map_ofNat_range _)

@[simp]
theorem mem_determinize_states : s ∈ (n.determinize alphabet complete).states ↔
    ∃ i < (n.subsets alphabet complete).found.size, Int.ofNat i = s := by
  rw [determinize_states]
  simp only [List.mem_map, List.mem_range]

/-- The sets with the states that they become. -/
theorem mem_mapIdx_keys {found : Numbering (List State)} :
    (s, qs) ∈ (found.keys.toList.mapIdx fun i qs => (Int.ofNat i, qs)) ↔
      ∃ i, found.key? i = some qs ∧ Int.ofNat i = s := by
  rw [List.mem_mapIdx]
  constructor
  · rintro ⟨i, hi, heq⟩
    cases heq
    exact ⟨i, by simp [Numbering.key?], rfl⟩
  · rintro ⟨i, hi, rfl⟩
    obtain ⟨hlt, hget⟩ := Array.getElem?_eq_some_iff.1 hi
    exact ⟨i, by simpa using hlt, by simp [hget]⟩

@[simp]
theorem mem_determinize_final : s ∈ (n.determinize alphabet complete).final ↔
    ∃ i qs, (n.subsets alphabet complete).found.key? i = some qs ∧ Int.ofNat i = s ∧
      Ascending.meets qs n.final = true := by
  have hfinal : s ∈ (n.determinize alphabet complete).final ↔
      s ∈ (((n.subsets alphabet complete).found.keys.toList.mapIdx fun i qs =>
        (Int.ofNat i, qs)).filter fun x => Ascending.meets x.2 n.final).map Prod.fst :=
    Ascending.mem_ofList
  rw [hfinal, List.mem_map]
  constructor
  · rintro ⟨⟨s, qs⟩, hx, rfl⟩
    obtain ⟨hx, hmeets⟩ := List.mem_filter.1 hx
    obtain ⟨i, hi, hs⟩ := mem_mapIdx_keys.1 hx
    exact ⟨i, qs, hi, hs, hmeets⟩
  · rintro ⟨i, qs, hi, hs, hmeets⟩
    exact ⟨(s, qs), List.mem_filter.2 ⟨mem_mapIdx_keys.2 ⟨i, hi, hs⟩, hmeets⟩, rfl⟩

@[simp]
theorem mem_determinize_edges : ⟨s, a, t⟩ ∈ (n.determinize alphabet complete).edges ↔
    ∃ i j, (i, a, j) ∈ (n.subsets alphabet complete).arcs ∧ Int.ofNat i = s ∧ Int.ofNat j = t := by
  have hedges : ⟨s, a, t⟩ ∈ (n.determinize alphabet complete).edges ↔
      (⟨s, a, t⟩ : Edge Symbol) ∈ (n.subsets alphabet complete).arcs.map fun x =>
        ⟨Int.ofNat x.1, x.2.1, Int.ofNat x.2.2⟩ := Ascending.mem_ofList
  rw [hedges, List.mem_map]
  constructor
  · rintro ⟨⟨i, b, j⟩, harc, he⟩
    cases he
    exact ⟨i, j, harc, rfl, rfl⟩
  · rintro ⟨i, j, harc, rfl, rfl⟩
    exact ⟨_, harc, rfl⟩

theorem determinize_isValid (h : n.IsValid) (alphabet : List Symbol) (complete : Bool) :
    (n.determinize alphabet complete).IsValid := by
  have hb := subsets_isBreadthFirst h alphabet complete
  have hmem : ∀ {i qs}, (n.subsets alphabet complete).found.key? i = some qs →
      Int.ofNat i ∈ (n.determinize alphabet complete).states :=
    fun hi => mem_determinize_states.2 ⟨_, Numbering.lt_size_of_key? hi, rfl⟩
  refine DFA.ofParts_isValid_of_mem rfl (hmem hb.start_key) (fun s hs => ?_) (fun e he => ?_)
    fun e he f hf hsource hlabel => ?_
  · obtain ⟨i, qs, hi, rfl, -⟩ := mem_determinize_final.1 hs
    exact hmem hi
  · obtain ⟨i, j, harc, hs, ht⟩ := mem_determinize_edges.1 he
    obtain ⟨qs, rs, hi, hj, -⟩ := hb.arc i _ j harc
    exact ⟨hs ▸ hmem hi, ht ▸ hmem hj⟩
  · obtain ⟨i, j, harc, hs, ht⟩ := mem_determinize_edges.1 he
    obtain ⟨i', j', harc', hs', ht'⟩ := mem_determinize_edges.1 hf
    obtain rfl : i = i' := Int.ofNat_inj.1 (hs.trans (hsource.trans hs'.symm))
    obtain ⟨qs, rs, hi, hj, hm⟩ := hb.arc i _ j harc
    obtain ⟨qs', rs', hi', hj', hm'⟩ := hb.arc i _ j' harc'
    obtain rfl := Option.some.inj (hi.symm.trans hi')
    -- the set that a symbol leads to is determined, and so is its number
    have hrs : rs = rs' := by
      rw [← (mem_subsetMoves.1 hm).2.1, ← (mem_subsetMoves.1 hm').2.1, hlabel]
    rw [← hrs] at hj'
    have hjj := Option.some.inj (((hb.proper _ _).2 hj).symm.trans ((hb.proper _ _).2 hj'))
    rw [← ht, ← ht', hjj]

theorem mem_determinize_alphabet (h : n.IsValid) :
    a ∈ (n.determinize alphabet complete).alphabet ↔ a ∈ n.alphabet ∨ a ∈ alphabet := by
  have hb := subsets_isBreadthFirst h alphabet complete
  have hlabel : ∀ e ∈ (n.determinize alphabet complete).edges,
      e.label ∈ Ascending.ofList (n.alphabet ++ alphabet) := by
    rintro ⟨s, a, t⟩ he
    obtain ⟨i, j, harc, -⟩ := mem_determinize_edges.1 he
    obtain ⟨qs, rs, -, -, hm⟩ := hb.arc i a j harc
    exact (mem_subsetMoves.1 hm).1
  have hgiven : a ∈ (n.determinize alphabet complete).alphabet ↔
      a ∈ Ascending.ofList (n.alphabet ++ alphabet) := DFA.mem_ofParts_alphabet rfl hlabel
  rw [hgiven, Ascending.mem_ofList, List.mem_append]

/-! ## Moves and words -/

section

variable (h : n.IsValid)

include h

theorem determinize_delta_eq_some_iff : (n.determinize alphabet complete).delta s a = some t ↔
    ∃ i j, (i, a, j) ∈ (n.subsets alphabet complete).arcs ∧ Int.ofNat i = s ∧ Int.ofNat j = t := by
  rw [(determinize_isValid h alphabet complete).delta_eq_some_iff, mem_determinize_edges]

/-- A state goes where its set goes. -/
theorem key?_of_determinize_delta
    (hi : (n.subsets alphabet complete).found.key? i = some qs)
    (hs : (n.determinize alphabet complete).delta (Int.ofNat i) a = some s) :
    ∃ j, (n.subsets alphabet complete).found.key? j = some (n.step qs (some a)) ∧
      Int.ofNat j = s := by
  obtain ⟨i', j, harc, hi', hj⟩ := (determinize_delta_eq_some_iff h).1 hs
  obtain rfl := Int.ofNat_inj.1 hi'
  obtain ⟨qs', rs, hqs, hrs, hm⟩ := (subsets_isBreadthFirst h alphabet complete).arc _ _ _ harc
  obtain rfl := Option.some.inj (hi.symm.trans hqs)
  obtain ⟨-, rfl, -⟩ := mem_subsetMoves.1 hm
  exact ⟨j, hrs, hj⟩

/-- Where a state cannot go, its set has nowhere to go. -/
theorem step_eq_nil_of_determinize_delta
    (hi : (n.subsets alphabet complete).found.key? i = some qs)
    (hs : (n.determinize alphabet complete).delta (Int.ofNat i) a = none) :
    n.step qs (some a) = [] := by
  refine Classical.byContradiction fun hne => ?_
  have ha : a ∈ n.alphabet := Classical.byContradiction fun ha =>
    hne (step_eq_nil_of_not_mem h ha)
  have hm : (a, n.step qs (some a)) ∈
      subsetMoves n.moves (Ascending.ofList (n.alphabet ++ alphabet)) complete qs :=
    mem_subsetMoves.2 ⟨Ascending.mem_ofList.2 (List.mem_append_left _ ha), rfl,
      fun hempty => absurd hempty hne⟩
  obtain ⟨j, -, harc⟩ := (subsets_isBreadthFirst h alphabet complete).closed i qs hi _ hm
  rw [(determinize_delta_eq_some_iff h).2 ⟨i, j, harc, rfl, rfl⟩] at hs
  cases hs

/-- A state accepts the words that lead from its set to a set with a final state. -/
theorem determinize_acceptsFrom (hi : (n.subsets alphabet complete).found.key? i = some qs) :
    (n.determinize alphabet complete).acceptsFrom (Int.ofNat i) w =
      Ascending.meets ((w.map some).foldl n.step qs) n.final := by
  induction w generalizing i qs with
  | nil =>
    rw [Bool.eq_iff_iff, DFA.acceptsFrom_nil_iff, mem_determinize_final]
    constructor
    · rintro ⟨j, rs, hj, hij, hmeets⟩
      obtain rfl := Int.ofNat_inj.1 hij
      obtain rfl := Option.some.inj (hi.symm.trans hj)
      exact hmeets
    · exact fun hmeets => ⟨i, qs, hi, rfl, hmeets⟩
  | cons a w ih =>
    rw [DFA.acceptsFrom_cons, List.map_cons, List.foldl_cons]
    cases hs : (n.determinize alphabet complete).delta (Int.ofNat i) a with
    | some s =>
      obtain ⟨j, hj, rfl⟩ := key?_of_determinize_delta h hi hs
      exact ih hj
    | none =>
      rw [step_eq_nil_of_determinize_delta h hi hs, foldl_step_nil]
      rfl

theorem determinize_accepts : (n.determinize alphabet complete).accepts w = n.accepts w :=
  determinize_acceptsFrom h (subsets_isBreadthFirst h alphabet complete).start_key

/-- If the start of the automaton is not entered again, no set but the first one holds it. -/
theorem determinize_delta_ne_start (hentry : ∀ e ∈ n.edges, e.target ≠ n.start) :
    (n.determinize alphabet complete).delta s a ≠
      some (n.determinize alphabet complete).start := by
  intro hs
  have hb := subsets_isBreadthFirst h alphabet complete
  obtain ⟨i, j, harc, -, hj⟩ := (determinize_delta_eq_some_iff h).1 hs
  obtain rfl : j = 0 := Int.ofNat_inj.1 hj
  obtain ⟨qs, rs, -, hrs, hm⟩ := hb.arc i a 0 harc
  obtain ⟨-, hstep, -⟩ := mem_subsetMoves.1 hm
  have hmem := n.start_mem_closure
  rw [Option.some.inj (hb.start_key.symm.trans hrs), ← hstep] at hmem
  exact not_mem_step_of_no_entry hentry hmem

/-- The first word to the source of the first arc to a state, and then the symbol on this arc, make
the first word to the state. -/
theorem isFirstWord_concat {p : Nat} {u : Word}
    (hfound : Discovery.IsFoundBy (n.subsets alphabet complete).arcs p a j)
    (hu : (n.determinize alphabet complete).IsFirstWord u (Int.ofNat p)) :
    (n.determinize alphabet complete).IsFirstWord (u ++ [a]) (Int.ofNat j) := by
  obtain ⟨hpj, harc, hfirst⟩ := hfound
  obtain ⟨hu, hleast⟩ := hu
  have hdelta := (determinize_delta_eq_some_iff h).2 ⟨p, j, harc, rfl, rfl⟩
  refine ⟨DFA.runFrom_concat_eq_some_iff.2 ⟨_, hu, hdelta⟩, fun v r hr hjr => ?_⟩
  rcases List.eq_nil_or_concat' v with rfl | ⟨v, b, rfl⟩
  · cases hr
    exact absurd (Int.ofNat_le.1 hjr) (Nat.not_le_of_lt (Nat.lt_of_le_of_lt (Nat.zero_le p) hpj))
  · obtain ⟨s, hs, hr⟩ := DFA.runFrom_concat_eq_some_iff.1 hr
    obtain ⟨i, t, harc', rfl, rfl⟩ := (determinize_delta_eq_some_iff h).1 hr
    have hlater := hfirst i b t harc' (Int.ofNat_le.1 hjr)
    have hpi : p ≤ i := by
      rcases hlater with heq | hlt | ⟨heq, -⟩
      · cases heq
        exact Nat.le_refl _
      · exact Nat.le_of_lt hlt
      · exact Nat.le_of_eq heq
    rcases hleast v _ hs (Int.ofNat_le.2 hpi) with rfl | hbefore
    · -- both words go on from the same state
      obtain rfl : p = i := Int.ofNat_inj.1 (Option.some.inj (hu.symm.trans hs))
      rcases hlater with heq | hlt | ⟨-, hab⟩
      · cases heq
        exact .inl rfl
      · exact absurd hlt (Nat.lt_irrefl p)
      · exact .inr (Word.before_concat hab u)
    · exact .inr (hbefore.concat a b)

theorem determinize_isShortlex : (n.determinize alphabet complete).IsShortlex := by
  intro q hq
  obtain ⟨j, hj, rfl⟩ := mem_determinize_states.1 hq
  clear hq
  induction j using Nat.strongRecOn with
  | _ j ih =>
    by_cases hj0 : j = 0
    · subst hj0
      exact ⟨[], DFA.isFirstWord_nil⟩
    · obtain ⟨p, a, hfound⟩ :=
        (subsets_isBreadthFirst h alphabet complete).foundBy j hj (Nat.pos_of_ne_zero hj0)
      obtain ⟨u, hu⟩ := ih p hfound.1 (Nat.lt_trans hfound.1 hj)
      exact ⟨u ++ [a], isFirstWord_concat h hfound hu⟩

end

end RegularLanguage.NFA
