import RegularLanguage.Graph.ToAutomaton
import RegularLanguage.Proofs.Pattern.Symbols
/-!
# Automata read back from their graphs

Every part of an automaton has its own place in the graph, and the label of silent moves is the only
text with two meanings: moves under the symbol `ε` are read back as silent moves. So the automaton
that is read back has the same moves exactly when none is under that symbol, and its words are those
of the automaton with that symbol left out (`isReadBack`). The automata of patterns carry single
characters, from which no quotes are taken off (`Dialect.graphs_readBack`).

| here | `relang` |
| --- | --- |
| `readBack` | `graph_to_nfa` after `automaton_to_graph` |
-/

namespace RegularLanguage

variable {n : NFA} {p q : State} {a : Symbol} {l : Label} {v w : Word}

namespace Graph

/-! ## Labels and flags -/

@[simp]
theorem unquote_singleton (c : Char) : unquote [c] = [c] := by
  unfold unquote
  split
  · rename_i heq
    cases heq
    rfl
  · rfl

theorem isSet_flag (b : Bool) : (Attribute.flag b).isSet = b := by
  cases b <;> decide

def reread (l : Label) : Label := readLabel (.text (labelText l))

theorem reread_none : reread none = none := by decide

theorem reread_some (h : unquote a.toList = a.toList) :
    reread (some a) = if a = silentLabel then none else some a := by
  have htext : (Attribute.text a).plainText = a := by
    rw [Attribute.plainText, Attribute.toText, h, String.ofList_toList]
  rw [reread, labelText, Option.getD_some, readLabel, htext]

/-! ## Reading the graph of an automaton -/

theorem startNames_ofNFA (h : n.IsValid) :
    ((ofNFA n).nodes.filter fun node => node.isStart.isSet).map Node.name =
      [.number n.start] := by
  have hstart : n.states.filter (· == n.start) = [n.start] := by
    rw [List.filter_beq, List.count_eq_one_of_mem h.states_ascending.nodup h.start_mem]
    rfl
  simp only [ofNFA, List.filter_map, Function.comp_def, isSet_flag, hstart, List.map_cons,
    List.map_nil]

theorem finalNames_ofNFA (n : NFA) :
    (ofNFA n).finalNames = (n.states.filter n.final.contains).map .number := by
  simp only [finalNames, ofNFA, List.filter_map, List.map_map, Function.comp_def, isSet_flag]

theorem fault?_ofNFA (n : NFA) : (ofNFA n).fault? = none := by
  have hnames : (ofNFA n).nodes.all fun node => (nameFault? node.name).isNone := by
    simp [ofNFA, nameFault?, Name.toNumber]
  rw [fault?, if_pos hnames]

/-- The automaton that is read from the graph of an automaton. -/
def readBack (n : NFA) : NFA :=
  .ofParts n.states n.start (n.states.filter n.final.contains)
    (n.edges.map (Edge.relabel reread)) []

theorem toNFA_ofNFA (h : n.IsValid) : (ofNFA n).toNFA = .ok (readBack n) := by
  rw [toNFA, startNames_ofNFA h]
  dsimp only
  rw [fault?_ofNFA, finalNames_ofNFA]
  simp only [ofNFA, List.map_map, Function.comp_def, stateOf, Name.toNumber, List.map_id']
  rfl

theorem readBack_states (h : n.IsValid) : (readBack n).states = n.states :=
  Ascending.ofList_eq_self h.states_ascending

theorem readBack_final (h : n.IsValid) : (readBack n).final = n.final := by
  refine Ascending.ext (Ascending.ascending_ofList _) h.final_ascending fun q => ?_
  have hfinal : q ∈ (readBack n).final ↔ q ∈ n.states.filter n.final.contains :=
    Ascending.mem_ofList
  rw [hfinal, List.mem_filter, List.contains_iff_mem]
  exact and_iff_right_of_imp (h.final_mem q)

theorem mem_readBack_edges :
    ⟨p, l, q⟩ ∈ (readBack n).edges ↔ ∃ k, reread k = l ∧ ⟨p, k, q⟩ ∈ n.edges := by
  have hedges : ⟨p, l, q⟩ ∈ (readBack n).edges ↔
      (⟨p, l, q⟩ : Edge Label) ∈ n.edges.map (Edge.relabel reread) := Ascending.mem_ofList
  rw [hedges, List.mem_map]
  constructor
  · rintro ⟨⟨p, k, q⟩, he, heq⟩
    cases heq
    exact ⟨k, rfl, he⟩
  · rintro ⟨k, rfl, he⟩
    exact ⟨_, he, rfl⟩

/-! ## Moves and words -/

section

variable (hplain : ∀ a ∈ n.usedSymbols, unquote a.toList = a.toList)

include hplain

theorem reread_of_mem (he : ⟨p, some a, q⟩ ∈ n.edges) :
    reread (some a) = if a = silentLabel then none else some a :=
  reread_some (hplain a (NFA.mem_usedSymbols.2 ⟨p, q, he⟩))

theorem readBack_silent_iff : ⟨p, none, q⟩ ∈ (readBack n).edges ↔
    ⟨p, none, q⟩ ∈ n.edges ∨ ⟨p, some silentLabel, q⟩ ∈ n.edges := by
  rw [mem_readBack_edges]
  constructor
  · rintro ⟨k, hk, he⟩
    cases k with
    | none => exact .inl he
    | some a =>
      rw [reread_of_mem hplain he] at hk
      split at hk
      · rename_i ha
        exact .inr (ha ▸ he)
      · cases hk
  · rintro (he | he)
    · exact ⟨none, reread_none, he⟩
    · exact ⟨_, by rw [reread_of_mem hplain he, if_pos rfl], he⟩

theorem readBack_symbol_iff : ⟨p, some a, q⟩ ∈ (readBack n).edges ↔
    a ≠ silentLabel ∧ ⟨p, some a, q⟩ ∈ n.edges := by
  rw [mem_readBack_edges]
  constructor
  · rintro ⟨k, hk, he⟩
    cases k with
    | none =>
      rw [reread_none] at hk
      cases hk
    | some b =>
      rw [reread_of_mem hplain he] at hk
      split at hk
      · cases hk
      · rename_i hb
        obtain rfl := Option.some.inj hk
        exact ⟨hb, he⟩
  · rintro ⟨ha, he⟩
    exact ⟨_, by rw [reread_of_mem hplain he, if_neg ha], he⟩

theorem readBack_edges_eq_iff (h : n.IsValid) :
    (readBack n).edges = n.edges ↔ silentLabel ∉ n.usedSymbols := by
  constructor
  · intro heq hused
    obtain ⟨p, q, he⟩ := NFA.mem_usedSymbols.1 hused
    rw [← heq, readBack_symbol_iff hplain] at he
    exact he.1 rfl
  · intro hused
    have hmove : ∀ {p q}, ⟨p, some silentLabel, q⟩ ∉ n.edges := fun he =>
      hused (NFA.mem_usedSymbols.2 ⟨_, _, he⟩)
    refine Ascending.ext (Ascending.ascending_ofList _) h.edges_ascending fun ⟨p, l, q⟩ => ?_
    cases l with
    | none => exact (readBack_silent_iff hplain).trans (or_iff_left hmove)
    | some a =>
      refine (readBack_symbol_iff hplain).trans (and_iff_right_of_imp ?_)
      rintro he rfl
      exact hmove he

/-- On a path the moves under the symbol `ε` become silent. -/
theorem readBack_path_iff : (readBack n).Path p w q ↔
    ∃ v, n.Path p v q ∧ v.filter (· ≠ silentLabel) = w := by
  constructor
  · intro h
    induction h with
    | nil q => exact ⟨[], .nil q, rfl⟩
    | silent he _ ih =>
      obtain ⟨v, hv, rfl⟩ := ih
      rcases (readBack_silent_iff hplain).1 he with he | he
      · exact ⟨v, .silent he hv, rfl⟩
      · exact ⟨silentLabel :: v, .symbol he hv, by simp⟩
    | @symbol p q r a w he _ ih =>
      obtain ⟨v, hv, rfl⟩ := ih
      obtain ⟨ha, he⟩ := (readBack_symbol_iff hplain).1 he
      exact ⟨a :: v, .symbol he hv, by simp [ha]⟩
  · rintro ⟨v, hv, rfl⟩
    induction hv with
    | nil q => exact .nil q
    | silent he _ ih => exact .silent ((readBack_silent_iff hplain).2 (.inl he)) ih
    | @symbol p q r a w he _ ih =>
      by_cases ha : a = silentLabel
      · subst ha
        rw [List.filter_cons_of_neg (by simp)]
        exact .silent ((readBack_silent_iff hplain).2 (.inr he)) ih
      · rw [List.filter_cons_of_pos (by simpa using ha)]
        exact .symbol ((readBack_symbol_iff hplain).2 ⟨ha, he⟩) ih

theorem readBack_accepts_iff (h : n.IsValid) : (readBack n).accepts w = true ↔
    ∃ v, n.accepts v = true ∧ v.filter (· ≠ silentLabel) = w := by
  have hstart : (readBack n).start = n.start := rfl
  simp only [NFA.accepts_iff_exists_path, readBack_final h, hstart, readBack_path_iff hplain]
  constructor
  · rintro ⟨q, ⟨v, hv, rfl⟩, hq⟩
    exact ⟨v, ⟨q, hv, hq⟩, rfl⟩
  · rintro ⟨v, ⟨q, hv, hq⟩, rfl⟩
    exact ⟨q, ⟨v, hv, rfl⟩, hq⟩

end

/-- What is read back from the graph of an automaton that accepts the given words. -/
structure IsReadBack (n : NFA) (words : Word → Bool) (back : NFA) : Prop where
  toNFA_eq : (ofNFA n).toNFA = .ok back
  states_eq : back.states = n.states
  start_eq : back.start = n.start
  final_eq : back.final = n.final
  edges_eq_iff : back.edges = n.edges ↔ silentLabel ∉ n.usedSymbols
  accepts_eq : silentLabel ∉ n.usedSymbols → ∀ w, back.accepts w = words w
  accepts_iff : ∀ w, back.accepts w = true ↔
    ∃ v, words v = true ∧ v.filter (· ≠ silentLabel) = w

theorem isReadBack (h : n.IsValid) (hplain : ∀ a ∈ n.usedSymbols, unquote a.toList = a.toList) :
    IsReadBack n n.accepts (readBack n) where
  toNFA_eq := toNFA_ofNFA h
  states_eq := readBack_states h
  start_eq := rfl
  final_eq := readBack_final h
  edges_eq_iff := readBack_edges_eq_iff hplain h
  accepts_eq hused _ :=
    NFA.accepts_congr rfl (readBack_final h) ((readBack_edges_eq_iff hplain h).2 hused)
  accepts_iff _ := readBack_accepts_iff hplain h

end Graph

/-! ## The automata of patterns -/

namespace Dialect

variable {c : Dialect} {r : Regex}

/-- Automata that carry only literals of an expression are read back. -/
theorem AllowsLiterals.isReadBack (hr : c.AllowsLiterals r) (h : n.IsValid)
    (hused : ∀ a ∈ n.usedSymbols, a ∈ r.literals) : ∃ back, Graph.IsReadBack n n.accepts back := by
  refine ⟨_, Graph.isReadBack h fun a ha => ?_⟩
  obtain ⟨⟨x, rfl⟩, -⟩ := hr a (hused a ha)
  rw [String.toList_singleton, Graph.unquote_singleton]

theorem AllowsLiterals.isReadBack_toNFA {d : DFA} (hr : c.AllowsLiterals r) (h : d.IsValid)
    (hused : ∀ a ∈ d.toNFA.usedSymbols, a ∈ r.literals) :
    ∃ back, Graph.IsReadBack d.toNFA d.accepts back := by
  have hwords : d.toNFA.accepts = d.accepts := funext fun w => DFA.toNFA_accepts h
  exact hwords ▸ hr.isReadBack (DFA.toNFA_isValid h) hused

/-- What is read back from the graphs of the automata that a pattern leads to. Only a pattern with
the literal `ε` leads to automata whose moves are not the same afterwards. -/
theorem graphs_readBack (c : Dialect) (p : String) (r : Regex) (h : c.parse p = .ok r) :
    ∃ n d m, c.nfa p = .ok n ∧ c.dfa p = .ok d ∧ c.minimalDFA p = .ok m ∧
      (silentLabel ∈ n.usedSymbols ↔ silentLabel ∈ r.literals) ∧
      ∀ fa ∈ [(n, n.accepts), (d.toNFA, d.accepts), (m.toNFA, m.accepts)],
        (silentLabel ∈ fa.1.usedSymbols → silentLabel ∈ r.literals) ∧
          ∃ back, Graph.IsReadBack fa.1 fa.2 back := by
  have hr := allowsLiterals_of_parse h
  have hnfa := r.toNFA_isValid c.declared
  have hdfa := r.toNFA_determinize_isValid c.declared c.declared false
  have hminimal := (DFA.minimize_isMinimal hdfa).toIsValid
  refine ⟨_, _, _, nfa_of_parse h, dfa_of_parse h, minimalDFA_of_parse h,
    Regex.mem_usedSymbols_toNFA c.declared, ?_⟩
  rw [List.forall_mem_cons, List.forall_mem_cons, List.forall_mem_singleton]
  refine ⟨⟨?_, hr.isReadBack hnfa fun a => ?_⟩, ⟨?_, hr.isReadBack_toNFA hdfa fun a => ?_⟩,
    ?_, hr.isReadBack_toNFA hminimal fun a => ?_⟩
  · exact (Regex.mem_usedSymbols_toNFA c.declared).1
  · exact (Regex.mem_usedSymbols_toNFA c.declared).1
  · exact Regex.mem_literals_of_determinize c.declared c.declared
  · exact Regex.mem_literals_of_determinize c.declared c.declared
  · exact Regex.mem_literals_of_minimize c.declared c.declared
  · exact Regex.mem_literals_of_minimize c.declared c.declared

/-- A quote as a symbol, and two moves between the same states. -/
theorem graphs_readBack_quote :
    let p := "(\"|a)*"
    let r : Regex := .star (.union (.literal "\"") (.literal "a"))
    ({} : Dialect).parse p = .ok r ∧
      ∃ n d m, ({} : Dialect).nfa p = .ok n ∧ ({} : Dialect).dfa p = .ok d ∧
        ({} : Dialect).minimalDFA p = .ok m ∧
        (silentLabel ∈ n.usedSymbols ↔ silentLabel ∈ r.literals) ∧
        ∀ fa ∈ [(n, n.accepts), (d.toNFA, d.accepts), (m.toNFA, m.accepts)],
          (silentLabel ∈ fa.1.usedSymbols → silentLabel ∈ r.literals) ∧
            ∃ back, Graph.IsReadBack fa.1 fa.2 back := by
  intro p r
  have h : ({} : Dialect).parse p = .ok r := by decide +kernel
  exact ⟨h, graphs_readBack {} p r h⟩

/-- The escaped marker of the empty word is a symbol, and its move is read back as a silent one. -/
theorem not_readBack_escapedEpsilon :
    ∃ n back, ({} : Dialect).nfa "\\ε" = .ok n ∧ (Graph.ofNFA n).toNFA = .ok back ∧
      n.edges = [⟨0, some "ε", 1⟩] ∧ back.edges = [⟨0, none, 1⟩] ∧
      n.accepts ["ε"] = true ∧ back.accepts ["ε"] = false := by
  refine ⟨.ofParts [0, 1] 0 [1] [⟨0, some "ε", 1⟩] [],
    .ofParts [0, 1] 0 [1] [⟨0, none, 1⟩] [], ?_⟩
  decide +kernel

end Dialect

end RegularLanguage
