import RegularLanguage.NFA.Builder
import RegularLanguage.Proofs.Automaton.Basic
/-!
# Runs of a builder

A builder is asked to add states and moves and to give the automaton of what it has, in any order.
It keeps the number of states and the moves of all calls so far (`Records`), so the states are
numbered from nought on, and whether an automaton is given is decided by the states that have been
handed out when it is asked for. The automaton has the moves that were added, whatever the order of
the calls was and however often a move was added (`answers_of_calls`).

| here | `relang` |
| --- | --- |
| `Call`, `respond` | a call of a method of `NFABuilder`, and what it returns |
-/

namespace RegularLanguage.NFA

namespace Builder

/-! ## Calls and answers -/

/-- What a builder can be asked for. -/
inductive Call where
  | addState
  | addEdge (source : State) (label : Label) (target : State)
  | addSilent (source target : State)
  | build (start : State) (final : List State) (alphabet : List Symbol)
deriving DecidableEq

inductive Answer where
  | state (q : State)
  | nothing
  | automaton (result : Except AutomatonError NFA)

/-- The answer to a call, and the builder as it is left. -/
def respond (b : Builder) : Call → Answer × Builder
  | .addState => (.state b.addState.1, b.addState.2)
  | .addEdge source label target => (.nothing, b.addEdge source label target)
  | .addSilent source target => (.nothing, b.addSilent source target)
  | .build start final alphabet => (.automaton (b.build start final alphabet), b)

/-- The answers to calls that are made one after the other. -/
def answers (b : Builder) : List Call → List Answer
  | [] => []
  | call :: calls => (b.respond call).1 :: answers (b.respond call).2 calls

def after (b : Builder) (calls : List Call) : Builder :=
  calls.foldl (fun b call => (b.respond call).2) b

def Call.edge? : Call → Option (Edge Label)
  | addEdge source label target => some ⟨source, label, target⟩
  | addSilent source target => some ⟨source, none, target⟩
  | addState | build _ _ _ => none

/-- The moves that calls add, in their order. -/
def added (calls : List Call) : List (Edge Label) := calls.filterMap Call.edge?

def Answer.state? : Answer → Option State
  | state q => some q
  | nothing | automaton _ => none

/-- The states that a new builder hands out. -/
def handedOut (calls : List Call) : List State := (answers {} calls).filterMap Answer.state?

/-- Start, final states and the ends of all moves added so far have been handed out. -/
structure FitTogether (calls : List Call) (start : State) (final : List State) : Prop where
  start_mem : start ∈ handedOut calls
  final_mem : ∀ q ∈ final, q ∈ handedOut calls
  source_mem : ∀ e ∈ added calls, e.source ∈ handedOut calls
  target_mem : ∀ e ∈ added calls, e.target ∈ handedOut calls

variable {b : Builder} {call : Call} {calls more : List Call} {start : State} {final : List State}
  {alphabet : List Symbol} {n : NFA}

theorem length_answers (b : Builder) (calls : List Call) :
    (b.answers calls).length = calls.length := by
  induction calls generalizing b with
  | nil => rfl
  | cons call calls ih => exact congrArg (· + 1) (ih _)

theorem answers_append (b : Builder) (calls more : List Call) :
    b.answers (calls ++ more) = b.answers calls ++ (b.after calls).answers more := by
  induction calls generalizing b with
  | nil => rfl
  | cons call calls ih => exact congrArg ((b.respond call).1 :: ·) (ih _)

/-- The answer to a call is that of the builder that the calls before it leave. -/
theorem getElem?_answers (b : Builder) (before : List Call) (call : Call) (later : List Call) :
    (b.answers (before ++ call :: later))[before.length]? =
      some ((b.after before).respond call).1 := by
  rw [answers_append, List.getElem?_append_right (by rw [length_answers]), length_answers,
    Nat.sub_self]
  rfl

/-! ## What a builder keeps -/

/-- The builder has as many states as calls have added, and their moves, the latest first. -/
structure Records (b : Builder) (calls : List Call) : Prop where
  size_eq : b.size = calls.count .addState
  edges_eq : b.edges.reverse = added calls

theorem Records.respond (h : b.Records calls) (call : Call) :
    (b.respond call).2.Records (calls ++ [call]) := by
  obtain ⟨hsize, hedges⟩ := h
  cases call <;>
    constructor <;>
    simp [Builder.respond, addState, addEdge, addSilent, added, Call.edge?, hsize, hedges]

theorem Records.after (h : b.Records calls) (more : List Call) :
    (b.after more).Records (calls ++ more) := by
  induction more generalizing b calls with
  | nil => simpa [Builder.after] using h
  | cons call more ih =>
    have hlater := ih (h.respond call)
    rwa [List.append_assoc, List.singleton_append] at hlater

theorem records_after (calls : List Call) : (after {} calls).Records calls := by
  have hnew : Records {} [] := ⟨rfl, rfl⟩
  exact hnew.after calls

theorem filterMap_answers (b : Builder) (calls : List Call) :
    (b.answers calls).filterMap Answer.state? =
      (List.range' b.size (calls.count .addState)).map Int.ofNat := by
  induction calls generalizing b with
  | nil => rfl
  | cons call calls ih =>
    cases call <;>
      simp [answers, respond, addState, addEdge, addSilent, Answer.state?, List.filterMap_cons, ih,
        List.range'_succ]

/-- The states are handed out in the order of their numbers. -/
theorem handedOut_eq (calls : List Call) :
    handedOut calls = (List.range (calls.count .addState)).map Int.ofNat := by
  rw [handedOut, filterMap_answers, List.range_eq_range']

theorem states_after (calls : List Call) : (after {} calls).states = handedOut calls := by
  rw [handedOut_eq, states, (records_after calls).size_eq]

end Builder

/-! ## The automata that are given -/

/-- The automaton has the states handed out by calls and the moves added by them, and its symbols
are those in use and those of the alphabet. -/
structure IsMadeOf (n : NFA) (calls : List Builder.Call) (start : State) (final : List State)
    (alphabet : List Symbol) : Prop where
  isValid : n.IsValid
  states_eq : n.states = Builder.handedOut calls
  start_eq : n.start = start
  mem_final : ∀ q, q ∈ n.final ↔ q ∈ final
  mem_edges : ∀ e, e ∈ n.edges ↔ e ∈ Builder.added calls
  mem_alphabet : ∀ a, a ∈ n.alphabet ↔ (∃ e ∈ Builder.added calls, e.label = some a) ∨ a ∈ alphabet

namespace Builder

variable {calls other : List Call} {start : State} {final : List State} {alphabet : List Symbol}
  {n : NFA}

theorem build_after_eq_ok_iff : (after {} calls).build start final alphabet = .ok n ↔
    FitTogether calls start final ∧
      NFA.ofParts (handedOut calls) start final (added calls) alphabet = n := by
  rw [build, states_after, (records_after calls).edges_eq, NFA.build_eq_ok_iff]
  refine and_congr_left fun _ => ⟨fun ⟨hstart, hfinal, hedges⟩ => ?_, fun h => ?_⟩
  · exact ⟨hstart, hfinal, fun e he => (hedges e he).1, fun e he => (hedges e he).2⟩
  · exact ⟨h.start_mem, h.final_mem, fun e he => ⟨h.source_mem e he, h.target_mem e he⟩⟩

theorem FitTogether.isMadeOf (h : FitTogether calls start final) :
    (NFA.ofParts (handedOut calls) start final (added calls) alphabet).IsMadeOf
      calls start final alphabet where
  isValid := NFA.ofParts_isValid h.start_mem h.final_mem
    fun e he => ⟨h.source_mem e he, h.target_mem e he⟩
  states_eq := by
    rw [handedOut_eq]
    exact Ascending.ofList_eq_self (ascending_map_ofNat_range _)
  start_eq := rfl
  mem_final q := Ascending.mem_ofList
  mem_edges e := Ascending.mem_ofList
  mem_alphabet a := by
    simp [NFA.ofParts, Automaton.ofParts]

/-- Neither the order of the calls matters nor how often a move is added. -/
theorem build_after_eq_ok_of_same (hcount : other.count .addState = calls.count .addState)
    (hedges : ∀ e, e ∈ added other ↔ e ∈ added calls)
    (hn : (after {} calls).build start final alphabet = .ok n) :
    (after {} other).build start final alphabet = .ok n := by
  obtain ⟨h, rfl⟩ := build_after_eq_ok_iff.1 hn
  have hhanded : handedOut other = handedOut calls := by rw [handedOut_eq, handedOut_eq, hcount]
  have hother : FitTogether other start final :=
    ⟨hhanded ▸ h.start_mem, hhanded ▸ h.final_mem,
      fun e he => hhanded ▸ h.source_mem e ((hedges e).1 he),
      fun e he => hhanded ▸ h.target_mem e ((hedges e).1 he)⟩
  refine build_after_eq_ok_iff.2 ⟨hother, ?_⟩
  rw [hhanded]
  exact NFA.ofParts_congr (fun _ => Iff.rfl) (fun _ => Iff.rfl) fun p l q => hedges ⟨p, l, q⟩

/-- For any calls that are made, a call for a state is given the number of such calls before it. A
call for an automaton succeeds exactly if start, final states and the ends of the moves added so far
have been handed out; it gives the automaton made of them, and the same one after any calls that add
as many states and the same moves. -/
theorem answers_of_calls (before later : List Call) :
    (answers {} (before ++ .addState :: later))[before.length]? =
      some (.state (before.count .addState)) ∧
    ∀ start final alphabet, ∃ result,
      (answers {} (before ++ .build start final alphabet :: later))[before.length]? =
        some (.automaton result) ∧
      ((∃ n, result = .ok n) ↔ FitTogether before start final) ∧
      ∀ n, result = .ok n → n.IsMadeOf before start final alphabet ∧
        ∀ other : List Call, other.count .addState = before.count .addState →
          (∀ e, e ∈ added other ↔ e ∈ added before) →
          (answers {} (other ++ .build start final alphabet :: later))[other.length]? =
            some (.automaton (.ok n)) := by
  have hbuild : ∀ calls start final alphabet,
      (answers {} (calls ++ .build start final alphabet :: later))[calls.length]? =
        some (.automaton ((after {} calls).build start final alphabet)) :=
    fun calls start final alphabet => getElem?_answers {} calls (.build start final alphabet) later
  constructor
  · rw [getElem?_answers, respond, addState, (records_after before).size_eq]
  · intro start final alphabet
    refine ⟨_, hbuild before start final alphabet, ⟨?_, ?_⟩, fun n hn => ⟨?_, ?_⟩⟩
    · rintro ⟨n, hn⟩
      exact (build_after_eq_ok_iff.1 hn).1
    · exact fun h => ⟨_, build_after_eq_ok_iff.2 ⟨h, rfl⟩⟩
    · obtain ⟨h, rfl⟩ := build_after_eq_ok_iff.1 hn
      exact h.isMadeOf
    · intro other hcount hedges
      rw [hbuild, build_after_eq_ok_of_same hcount hedges hn]

/-- Moves are added before their states, and one of them twice. -/
def early : List Call :=
  [.addEdge 0 (some "a") 1, .addState, .build 0 [] [], .addSilent 1 0, .addState,
    .addEdge 0 (some "a") 1]

theorem answers_of_calls_early :
    (∀ n, (answers {} early)[2]? ≠ some (.automaton (.ok n))) ∧
    ∃ n, (answers {} (early ++ [.build 0 [1] ["b"]]))[6]? = some (.automaton (.ok n)) ∧
      n.IsMadeOf early 0 [1] ["b"] := by
  constructor
  · obtain ⟨result, hresult, hsucceeds, -⟩ :=
      (answers_of_calls (early.take 2) (early.drop 3)).2 0 [] []
    intro n hn
    have hfirst : (answers {} early)[2]? = some (.automaton result) := hresult
    obtain rfl : result = .ok n := Answer.automaton.inj (Option.some.inj (hfirst.symm.trans hn))
    have hfit := hsucceeds.1 ⟨n, rfl⟩
    exact absurd (hfit.target_mem ⟨0, some "a", 1⟩ (by decide)) (by decide)
  · obtain ⟨result, hresult, hsucceeds, hmade⟩ := (answers_of_calls early []).2 0 [1] ["b"]
    obtain ⟨n, rfl⟩ := hsucceeds.2 ⟨by decide, by decide, by decide, by decide⟩
    exact ⟨n, hresult, (hmade n rfl).1⟩

end Builder

end RegularLanguage.NFA
