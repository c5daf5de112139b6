import RegularLanguage.Proofs.Checked.Matrix
import RegularLanguage.Proofs.Checked.Minimize
import RegularLanguage.Proofs.Checked.Subset
/-!
# Constructions never fault

A construction applies operations, one to the result of the other, to automata whose parts are
given. If the given parts fit together, no guard fails on the way, and the guarded operations give
what the operations give (`constructions_never_fault`). Each operation takes valid automata to valid
ones, so this follows by induction on the construction.

| here | `relang` |
| --- | --- |
| `NFA.Construction` | calls of `NFA`, `compile_to_nfa`, `remove_epsilon_transitions` |
| `DFA.Construction` | calls of `DFA` and of the functions and methods that give one |
-/

namespace RegularLanguage

/-- A nondeterministic automaton as it is made: from parts, from an expression, or by an operation
on another one. -/
inductive NFA.Construction where
  | parts (states : List State) (start : State) (final : List State) (edges : List (Edge Label))
      (alphabet : List Symbol)
  | regex (r : Regex) (alphabet : List Symbol)
  | withoutSilent (c : NFA.Construction)

/-- A deterministic automaton as it is made. Parts that are given have one target for a state and a
label. -/
inductive DFA.Construction where
  | parts (states : List State) (start : State) (final : List State) (edges : List (Edge Label))
      (alphabet : List Symbol) (subsets : List (State × List State))
      (target_unique : ∀ e ∈ edges, ∀ f ∈ edges, e.source = f.source → e.label = f.label →
        e.target = f.target)
  | determinize (c : NFA.Construction) (alphabet : List Symbol) (total : Bool)
  | complete (c : DFA.Construction) (alphabet : List Symbol)
  | prune (c : DFA.Construction)
  | trim (c : DFA.Construction)
  | minimize (c : DFA.Construction) (total : Bool)

/-! ## What a construction makes, and its guarded run -/

namespace NFA.Construction

/-- The automaton that is made. Only parts that are given may be refused. -/
def make : NFA.Construction → Except AutomatonError NFA
  | parts states start final edges alphabet => NFA.build states start final edges alphabet
  | regex r alphabet => .ok (r.toNFA alphabet)
  | withoutSilent c => c.make.map NFA.withoutSilent

/-- The same with all operations guarded. -/
def run : NFA.Construction → Except Fault NFA
  | parts states start final edges alphabet =>
    (NFA.build states start final edges alphabet).mapError .misfit
  | regex r alphabet => Checked.toNFA r alphabet
  | withoutSilent c => c.run >>= Checked.withoutSilent

end NFA.Construction

namespace DFA.Construction

/-- The automaton that is made. Only parts that are given may be refused. -/
def make : DFA.Construction → Except AutomatonError DFA
  | parts states start final edges alphabet subsets _ =>
    DFA.build states start final edges alphabet subsets
  | determinize c alphabet total => c.make.map fun n => n.determinize alphabet total
  | complete c alphabet => c.make.map fun d => d.complete alphabet
  | prune c => c.make.map DFA.prune
  | trim c => c.make.map DFA.trim
  | minimize c total => c.make.map fun d => if total then d.minimizeComplete else d.minimize

/-- The same with all operations guarded. -/
def run : DFA.Construction → Except Fault DFA
  | parts states start final edges alphabet subsets _ =>
    (DFA.build states start final edges alphabet subsets).mapError .misfit
  | determinize c alphabet total => c.run >>= fun n => Checked.determinize n alphabet total
  | complete c alphabet => c.run >>= fun d => Checked.complete d alphabet
  | prune c => c.run >>= Checked.prune
  | trim c => c.run >>= Checked.trim
  | minimize c total => c.run >>= fun d => Checked.minimize d total

end DFA.Construction

namespace Checked

/-! ## One operation after the other -/

/-- An operation on what has been made is run without a fault if what has been made is valid and
the operation takes valid automata to valid ones. -/
theorem bind_eq_ok {α β : Type} {made : Except AutomatonError α} {run : Except Fault α}
    {f : α → β} {g : α → Except Fault β} {P : α → Prop} {Q : β → Prop} {b : β}
    (hb : made.map f = .ok b) (hrun : ∀ a, made = .ok a → run = .ok a ∧ P a)
    (hstep : ∀ a, P a → g a = .ok (f a) ∧ Q (f a)) : (run >>= g) = .ok b ∧ Q b := by
  cases made with
  | error e => cases hb
  | ok a =>
    cases hb
    obtain ⟨hok, ha⟩ := hrun a rfl
    rw [hok, ok_bind]
    exact hstep a ha

theorem minimize_isValid {d : DFA} (h : d.IsValid) (total : Bool) :
    (if total then d.minimizeComplete else d.minimize).IsValid := by
  split
  · exact (DFA.minimizeComplete_isReduced h).toIsValid
  · exact (DFA.minimize_isMinimal h).toIsValid

theorem nfa_run_eq_ok {c : NFA.Construction} {n : NFA} (hn : c.make = .ok n) :
    c.run = .ok n ∧ n.IsValid := by
  induction c generalizing n with
  | parts states start final edges alphabet =>
    have hbuild : NFA.build states start final edges alphabet = .ok n := hn
    rw [NFA.Construction.run, hbuild]
    exact ⟨rfl, NFA.build_isValid hbuild⟩
  | regex r alphabet =>
    cases hn
    exact ⟨toNFA_eq_ok r alphabet, r.toNFA_isValid alphabet⟩
  | withoutSilent c ih =>
    exact bind_eq_ok hn (fun _ => ih) fun _ h =>
      ⟨withoutSilent_eq_ok h, NFA.withoutSilent_isValid h⟩

theorem dfa_run_eq_ok {c : DFA.Construction} {d : DFA} (hd : c.make = .ok d) :
    c.run = .ok d ∧ d.IsValid := by
  induction c generalizing d with
  | parts states start final edges alphabet subsets target_unique =>
    have hbuild : DFA.build states start final edges alphabet subsets = .ok d := hd
    rw [DFA.Construction.run, hbuild]
    exact ⟨rfl, DFA.build_isValid hbuild target_unique⟩
  | determinize c alphabet total =>
    exact bind_eq_ok hd (fun _ => nfa_run_eq_ok) fun _ h =>
      ⟨determinize_eq_ok h alphabet total, NFA.determinize_isValid h alphabet total⟩
  | complete c alphabet ih =>
    exact bind_eq_ok hd (fun _ => ih) fun _ h => ⟨complete_eq_ok h alphabet, DFA.complete_isValid h⟩
  | prune c ih =>
    exact bind_eq_ok hd (fun _ => ih) fun _ h => ⟨prune_eq_ok h, DFA.prune_isValid h⟩
  | trim c ih =>
    exact bind_eq_ok hd (fun _ => ih) fun _ h => ⟨trim_eq_ok h, DFA.trim_isValid h⟩
  | minimize c total ih =>
    exact bind_eq_ok hd (fun _ => ih) fun _ h => ⟨minimize_eq_ok h total, minimize_isValid h total⟩

/-- Whatever is made by operations, one after the other, from parts that fit together is made
without a fault and is valid. Nothing that is asked of it then ends in a fault. -/
theorem constructions_never_fault :
    (∀ (c : NFA.Construction) (n : NFA), c.make = .ok n →
      c.run = .ok n ∧ n.IsValid ∧ ofNFA n = .ok (.ofNFA n) ∧ (MatrixAutomaton.ofNFA n).IsProper) ∧
    ∀ (c : DFA.Construction) (d : DFA), c.make = .ok d →
      c.run = .ok d ∧ d.IsValid ∧ d.toNFA.hasSilentMoves = false ∧
      equivalenceClasses d = .ok d.equivalenceClasses ∧
      distinguishablePairs d = .ok d.distinguishablePairs ∧
      ofNFA d.toNFA = .ok (.ofNFA d.toNFA) ∧ (MatrixAutomaton.ofNFA d.toNFA).IsProper ∧
      ∀ (c' : DFA.Construction) (e : DFA), c'.make = .ok e →
        isEquivalent d e = .ok (d.isEquivalent e) := by
  refine ⟨fun c n hn => ?_, fun c d hd => ?_⟩
  · obtain ⟨hrun, hvalid⟩ := nfa_run_eq_ok hn
    exact ⟨hrun, hvalid, ofNFA_eq_ok hvalid, MatrixAutomaton.ofNFA_isProper hvalid⟩
  · obtain ⟨hrun, hvalid⟩ := dfa_run_eq_ok hd
    have hnfa := DFA.toNFA_isValid hvalid
    exact ⟨hrun, hvalid, d.toNFA_hasSilentMoves, equivalenceClasses_eq_ok hvalid,
      distinguishablePairs_eq_ok hvalid, ofNFA_eq_ok hnfa, MatrixAutomaton.ofNFA_isProper hnfa,
      fun c' e he => isEquivalent_eq_ok hvalid (dfa_run_eq_ok he).2⟩

/-- The nondeterministic automaton has a state that no move leads to and silent moves in a circle,
the deterministic one has a state that is not reached. -/
theorem constructions_never_fault_roundabout_lasso :
    let c : NFA.Construction := .withoutSilent (.parts [4, 1, -6, 8, 11] 4 [8]
      [⟨4, none, 1⟩, ⟨1, none, 4⟩, ⟨1, some "a", -6⟩, ⟨-6, none, 8⟩, ⟨11, some "b", 4⟩] ["c"])
    let c₁ : DFA.Construction := .minimize (.complete (.determinize c ["z"] true) ["y"]) true
    let c₂ : DFA.Construction := .trim (.prune (.parts [7, -3, 12] 7 [-3, 12]
      [⟨7, some "a", -3⟩, ⟨-3, some "bc", -3⟩] ["d"] [] (by decide)))
    ∃ n d e, c.make = .ok n ∧ c₁.make = .ok d ∧ c₂.make = .ok e ∧
      (c.run = .ok n ∧ n.IsValid ∧ ofNFA n = .ok (.ofNFA n)) ∧
      (c₁.run = .ok d ∧ d.IsValid ∧ distinguishablePairs d = .ok d.distinguishablePairs) ∧
      isEquivalent d e = .ok (d.isEquivalent e) := by
  intro c c₁ c₂
  have hn : c.make = .ok NFA.roundabout.withoutSilent := rfl
  have hd : c₁.make = .ok ((NFA.roundabout.withoutSilent.determinize ["z"] true).complete
      ["y"]).minimizeComplete := rfl
  have he : c₂.make = .ok MatrixAutomaton.lasso.prune.trim := rfl
  obtain ⟨hnrun, hnvalid, hnmatrix, -⟩ := constructions_never_fault.1 c _ hn
  obtain ⟨hdrun, hdvalid, -, -, hdpairs, -, -, hequivalent⟩ := constructions_never_fault.2 c₁ _ hd
  exact ⟨_, _, _, hn, hd, he, ⟨hnrun, hnvalid, hnmatrix⟩, ⟨hdrun, hdvalid, hdpairs⟩,
    hequivalent c₂ _ he⟩

end Checked

end RegularLanguage
