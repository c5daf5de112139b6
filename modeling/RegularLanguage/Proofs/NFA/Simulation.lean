import RegularLanguage.NFA.Basic
import RegularLanguage.Proofs.Search.Reach
/-!
# Simulation and paths

Running an automaton follows all paths at once: after a word it is in exactly the states to which
some path that spells the word leads from the start (`mem_run_iff_path`). Silent moves may stand
anywhere on the path and may form cycles. So a word is accepted when its symbols are what is left of
the labels on some walk to a final state, once silent moves are passed over
(`accepts_iff_exists_walk`).
-/

namespace RegularLanguage.NFA

variable {n m : NFA} {p q r : State} {a : Symbol} {u v w : Word} {qs : List State}

/-! ## Paths -/

theorem Path.append (hu : n.Path p u q) (hv : n.Path q v r) : n.Path p (u ++ v) r := by
  induction hu with
  | nil => exact hv
  | silent h _ ih => exact .silent h (ih hv)
  | symbol h _ ih => exact .symbol h (ih hv)

/-- A path takes only edges into account. -/
theorem Path.mono (h : ∀ e ∈ n.edges, e ∈ m.edges) (hw : n.Path p w q) : m.Path p w q := by
  induction hw with
  | nil q => exact .nil q
  | silent he _ ih => exact .silent (h _ he) ih
  | symbol he _ ih => exact .symbol (h _ he) ih

/-- The first move of a path between different states. -/
theorem Path.head (h : n.Path p w q) (hpq : p ≠ q) :
    (∃ r, ⟨p, none, r⟩ ∈ n.edges ∧ n.Path r w q) ∨
      ∃ a v r, w = a :: v ∧ ⟨p, some a, r⟩ ∈ n.edges ∧ n.Path r v q := by
  cases h with
  | nil => exact absurd rfl hpq
  | silent he rest => exact .inl ⟨_, he, rest⟩
  | symbol he rest => exact .inr ⟨_, _, _, rfl, he, rest⟩

/-- A path that spells a symbol first goes on silent moves to an edge under that symbol. -/
theorem path_cons_iff : n.Path p (a :: w) r ↔
    ∃ s t, n.Path p [] s ∧ ⟨s, some a, t⟩ ∈ n.edges ∧ n.Path t w r := by
  constructor
  · generalize hv : a :: w = v
    intro h
    induction h with
    | nil => cases hv
    | silent he _ ih =>
      obtain ⟨s, t, hs, ht, hr⟩ := ih hv
      exact ⟨s, t, .silent he hs, ht, hr⟩
    | symbol he hr _ =>
      cases hv
      exact ⟨_, _, .nil _, he, hr⟩
  · rintro ⟨s, t, hs, ht, hr⟩
    exact hs.append (.symbol ht hr)

/-- A path is cut where a first part of its word ends. -/
theorem path_append_iff : n.Path p (u ++ v) r ↔ ∃ q, n.Path p u q ∧ n.Path q v r := by
  refine ⟨fun h => ?_, fun ⟨q, hu, hv⟩ => hu.append hv⟩
  induction u generalizing p with
  | nil => exact ⟨p, .nil p, h⟩
  | cons a u ih =>
    obtain ⟨s, t, hs, he, ht⟩ := path_cons_iff.1 h
    obtain ⟨q, hu, hv⟩ := ih ht
    exact ⟨q, path_cons_iff.2 ⟨s, t, hs, he, hu⟩, hv⟩

theorem path_cons_iff_exists : n.Path p (a :: w) r ↔ ∃ q, n.Path p [a] q ∧ n.Path q w r :=
  path_append_iff (u := [a])

section

variable (hs : n.hasSilentMoves = false)

include hs

theorem label_ne_none {e : Edge Label} (he : e ∈ n.edges) : e.label ≠ none := by
  simpa using List.any_eq_false.1 hs e he

/-- Where no move is silent, the empty word leads nowhere else. -/
theorem path_nil_iff : n.Path p [] q ↔ p = q := by
  constructor
  · generalize hw : ([] : Word) = w
    intro h
    cases h with
    | nil => rfl
    | silent he _ => exact absurd rfl (label_ne_none hs he)
    | symbol => cases hw
  · rintro rfl
    exact .nil p

/-- Where no move is silent, a path that spells a single symbol is an edge. -/
theorem path_singleton_iff : n.Path p [a] q ↔ ⟨p, some a, q⟩ ∈ n.edges := by
  rw [path_cons_iff]
  simp only [path_nil_iff hs, exists_and_left, exists_eq_left', exists_eq_right]

theorem path_concat_iff :
    n.Path p (w ++ [a]) r ↔ ∃ q, n.Path p w q ∧ ⟨q, some a, r⟩ ∈ n.edges := by
  simp only [path_append_iff, path_singleton_iff hs]

end

/-! ## One step of the simulation -/

@[simp]
theorem mem_silent_successors :
    q ∈ n.moves.silent.successors.values p ↔ ⟨p, none, q⟩ ∈ n.edges := by
  rw [moves, Digraph.mem_successors, List.mem_map]
  constructor
  · rintro ⟨e, he, heq⟩
    obtain ⟨he, hl⟩ := List.mem_filter.1 he
    simp only [Prod.mk.injEq] at heq
    obtain ⟨rfl, rfl⟩ := heq
    rw [← of_decide_eq_true hl]
    exact he
  · intro h
    exact ⟨⟨p, none, q⟩, List.mem_filter.2 ⟨h, by simp⟩, rfl⟩

theorem leads_silent_iff : Leads n.moves.silent.successors.values p q ↔ n.Path p [] q := by
  constructor
  · intro h
    induction h with
    | refl => exact .nil _
    | step h _ ih => exact .silent (mem_silent_successors.1 h) ih
  · generalize hw : ([] : Word) = w
    intro h
    induction h with
    | nil => exact .refl _
    | silent he _ ih => exact .step (mem_silent_successors.2 he) (ih hw)
    | symbol => cases hw

@[simp]
theorem mem_closure : q ∈ n.closure qs ↔ ∃ p ∈ qs, n.Path p [] q := by
  have h : q ∈ n.closure qs ↔ ∃ p ∈ qs, Leads n.moves.silent.successors.values p q :=
    Digraph.mem_reach
  simpa only [leads_silent_iff] using h

theorem start_mem_closure (n : NFA) : n.start ∈ n.closure [n.start] :=
  mem_closure.2 ⟨n.start, List.mem_singleton.2 rfl, .nil _⟩

@[simp]
theorem mem_move {l : Label} : q ∈ n.move qs l ↔ ∃ p ∈ qs, ⟨p, l, q⟩ ∈ n.edges := by
  simp only [move, Moves.move, Ascending.mem_ofList, List.mem_flatMap, List.mem_filterMap]
  refine exists_congr fun p => and_congr_right fun _ => ?_
  constructor
  · rintro ⟨⟨l', q'⟩, hout, h⟩
    split at h
    · rename_i hl
      cases h
      subst hl
      obtain ⟨e, he, heq⟩ := List.mem_map.1 (Grouping.mem_values_ofPairs.1 hout)
      cases heq
      exact he
    · cases h
  · intro h
    exact ⟨(l, q), Grouping.mem_values_ofPairs.2 (List.mem_map.2 ⟨_, h, rfl⟩), by simp⟩

@[simp]
theorem mem_step {l : Label} :
    q ∈ n.step qs l ↔ ∃ p ∈ qs, ∃ r, ⟨p, l, r⟩ ∈ n.edges ∧ n.Path r [] q := by
  have h : n.step qs l = n.closure (n.move qs l) := rfl
  rw [h, mem_closure]
  constructor
  · rintro ⟨r, hr, hq⟩
    obtain ⟨p, hp, he⟩ := mem_move.1 hr
    exact ⟨p, hp, r, he, hq⟩
  · rintro ⟨p, hp, r, he, hq⟩
    exact ⟨r, mem_move.2 ⟨p, hp, he⟩, hq⟩

@[simp]
theorem step_nil {l : Label} : n.step [] l = [] :=
  List.eq_nil_iff_forall_not_mem.2 fun q hq => by
    obtain ⟨p, hp, -⟩ := mem_step.1 hq
    cases hp

theorem foldl_step_nil {labels : List Label} : labels.foldl n.step [] = [] := by
  induction labels with
  | nil => rfl
  | cons l labels ih => rw [List.foldl_cons, step_nil, ih]

/-- A symbol that is on no edge leads nowhere. -/
theorem step_eq_nil_of_not_mem (h : n.IsValid) (ha : a ∉ n.alphabet) : n.step qs (some a) = [] :=
  List.eq_nil_iff_forall_not_mem.2 fun q hq => by
    obtain ⟨p, -, r, he, -⟩ := mem_step.1 hq
    exact ha (h.label_mem _ he a rfl)

/-- A state that no edge enters is reached from itself alone. -/
theorem Path.eq_of_no_entry (hr : ∀ e ∈ n.edges, e.target ≠ r) (h : n.Path p w r) : p = r := by
  induction h with
  | nil => rfl
  | silent he _ ih => exact absurd (ih hr) (hr _ he)
  | symbol he _ ih => exact absurd (ih hr) (hr _ he)

theorem not_mem_step_of_no_entry {l : Label} (hr : ∀ e ∈ n.edges, e.target ≠ r) :
    r ∉ n.step qs l := by
  intro h
  obtain ⟨p, -, s, he, hs⟩ := mem_step.1 h
  exact hr _ he (hs.eq_of_no_entry hr)

/-- A set of states is kept as an ascending list. -/
structure IsSet (n : NFA) (qs : List State) : Prop where
  ascending : Ascending qs
  mem_states : ∀ q ∈ qs, q ∈ n.states

theorem Path.mem_states (h : n.IsValid) (hw : n.Path p w q) (hp : p ∈ n.states) :
    q ∈ n.states := by
  induction hw with
  | nil => exact hp
  | silent he _ ih => exact ih (h.target_mem _ he)
  | symbol he _ ih => exact ih (h.target_mem _ he)

theorem isSet_closure (h : n.IsValid) (hqs : ∀ q ∈ qs, q ∈ n.states) : n.IsSet (n.closure qs) := by
  refine ⟨ascending_reach _ _ _, fun q hq => ?_⟩
  obtain ⟨p, hp, hpq⟩ := mem_closure.1 hq
  exact hpq.mem_states h (hqs p hp)

theorem isSet_step (h : n.IsValid) (l : Label) : n.IsSet (n.step qs l) := by
  refine isSet_closure h fun q hq => ?_
  obtain ⟨p, -, he⟩ := mem_move.1 hq
  exact h.target_mem _ he

/-! ## Whole runs -/

/-- No silent move leads out of the set. -/
def IsClosed (n : NFA) (qs : List State) : Prop := ∀ p ∈ qs, ∀ q, n.Path p [] q → q ∈ qs

theorem isClosed_closure (n : NFA) (qs : List State) : n.IsClosed (n.closure qs) := by
  intro p hp q hq
  obtain ⟨r, hr, hrp⟩ := mem_closure.1 hp
  exact mem_closure.2 ⟨r, hr, hrp.append hq⟩

theorem isClosed_step (n : NFA) (qs : List State) (l : Label) : n.IsClosed (n.step qs l) :=
  isClosed_closure n _

/-- The simulation from a closed set. -/
theorem mem_foldl_step (hqs : n.IsClosed qs) :
    q ∈ (w.map some).foldl n.step qs ↔ ∃ p ∈ qs, n.Path p w q := by
  induction w generalizing qs with
  | nil =>
    constructor
    · exact fun h => ⟨q, h, .nil q⟩
    · rintro ⟨p, hp, h⟩
      exact hqs p hp q h
  | cons a w ih =>
    rw [List.map_cons, List.foldl_cons, ih (isClosed_step n qs (some a))]
    constructor
    · rintro ⟨s, hs, hq⟩
      obtain ⟨p, hp, r, he, hr⟩ := mem_step.1 hs
      exact ⟨p, hp, .symbol he (hr.append hq)⟩
    · rintro ⟨p, hp, h⟩
      obtain ⟨s, t, hs, he, hq⟩ := path_cons_iff.1 h
      exact ⟨t, mem_step.2 ⟨s, hqs p hp s hs, t, he, .nil t⟩, hq⟩

/-- After a word the automaton is in the states to which paths lead that spell it. -/
@[simp]
theorem mem_run_iff_path : q ∈ n.run (w.map some) ↔ n.Path n.start w q := by
  have h : n.run (w.map some) = (w.map some).foldl n.step (n.closure [n.start]) := rfl
  rw [h, mem_foldl_step (isClosed_closure n _)]
  constructor
  · rintro ⟨p, hp, hq⟩
    obtain ⟨s, hs, hsp⟩ := mem_closure.1 hp
    obtain rfl := List.mem_singleton.1 hs
    exact hsp.append hq
  · intro hq
    exact ⟨n.start, n.start_mem_closure, hq⟩

theorem ascending_run (n : NFA) (labels : List Label) : Ascending (n.run labels) :=
  List.foldlRecOn labels n.step (ascending_reach _ _ _) fun _ _ _ _ => ascending_reach _ _ _

theorem accepts_iff_mem_run : n.accepts w = true ↔ ∃ q ∈ n.run (w.map some), q ∈ n.final :=
  Ascending.meets_eq_true_iff

theorem accepts_iff_exists_path :
    n.accepts w = true ↔ ∃ q, n.Path n.start w q ∧ q ∈ n.final := by
  simp only [accepts_iff_mem_run, mem_run_iff_path]

/-- The words depend on the start, the final states and the edges alone. -/
theorem accepts_congr (hstart : n.start = m.start) (hfinal : n.final = m.final)
    (hedges : n.edges = m.edges) : n.accepts w = m.accepts w := by
  have hpath : ∀ q, n.Path n.start w q ↔ m.Path m.start w q := by
    intro q
    rw [hstart]
    exact ⟨.mono fun e he => hedges ▸ he, .mono fun e he => hedges ▸ he⟩
  rw [Bool.eq_iff_iff, accepts_iff_exists_path, accepts_iff_exists_path, hfinal]
  simp only [hpath]

/-! ## Walks -/

inductive IsWalk (n : NFA) : State → List (Edge Label) → State → Prop where
  | nil (q : State) : IsWalk n q [] q
  | cons {e : Edge Label} {es : List (Edge Label)} {r : State} (h : e ∈ n.edges)
      (rest : IsWalk n e.target es r) : IsWalk n e.source (e :: es) r

def spelled (es : List (Edge Label)) : Word := es.filterMap Edge.label

theorem IsWalk.path {es : List (Edge Label)} (h : n.IsWalk p es q) : n.Path p (spelled es) q := by
  induction h with
  | nil q => exact .nil q
  | @cons e es r he _ ih =>
    obtain ⟨p, l, q⟩ := e
    cases l with
    | none => exact .silent he ih
    | some a => exact .symbol he ih

/-- A path takes one edge after another. -/
theorem path_iff_exists_walk : n.Path p w q ↔ ∃ es, n.IsWalk p es q ∧ spelled es = w := by
  constructor
  · intro h
    induction h with
    | nil q => exact ⟨[], .nil q, rfl⟩
    | silent he _ ih =>
      obtain ⟨es, hes, rfl⟩ := ih
      exact ⟨_ :: es, .cons he hes, rfl⟩
    | symbol he _ ih =>
      obtain ⟨es, hes, rfl⟩ := ih
      exact ⟨_ :: es, .cons he hes, rfl⟩
  · rintro ⟨es, hes, rfl⟩
    exact hes.path

/-- A word is accepted exactly when some walk leads from the start to a final state on which the
symbols, in their order, are those of the word. -/
theorem accepts_iff_exists_walk (n : NFA) (w : Word) : n.accepts w = true ↔
    ∃ es q, n.IsWalk n.start es q ∧ q ∈ n.final ∧ spelled es = w := by
  simp only [accepts_iff_exists_path, path_iff_exists_walk]
  constructor
  · rintro ⟨q, ⟨es, hes, hw⟩, hq⟩
    exact ⟨es, q, hes, hq, hw⟩
  · rintro ⟨es, q, hes, hq, hw⟩
    exact ⟨q, ⟨es, hes, hw⟩, hq⟩

end RegularLanguage.NFA
