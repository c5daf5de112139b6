import Mathlib.Data.List.Forall2
import RegularLanguage.Proofs.Graph.RoundTrip
import RegularLanguage.Proofs.Text.Integer
/-!
# Automata read back from renderings of their graphs

A graph that comes from a file has texts only. The names of its nodes are decimal digits, each flag
and each label is bare or in quotes, nodes and edges stand in any order, and edges may be repeated.
Whatever the rendering, the automaton is read back, unless a state has more digits than integers are
read with: then it is the name of such a state that is refused (`toNFA_of_rendersAs`).

| here | `relang` |
| --- | --- |
| `RendersAs` | what `read_graph_from_dot` makes of a file of `save_automaton_to_dot` |
-/

namespace RegularLanguage.Graph

open Text

variable {n : NFA} {g : Graph} {a b : Attribute} {l : Label} {q : State} {name : Name}

/-! ## Renderings -/

/-- A text in one pair of double quotes. -/
def inQuotes (text : String) : String := "\"" ++ text ++ "\""

/-- A value may be rendered in quotes or bare; bare texts that look like quoted ones are left out,
and no flag is one of them. -/
def Attribute.RendersAs (a b : Attribute) : Prop :=
  b = .text (inQuotes a.toText) ∨ b = .text a.toText ∧ ∀ inner, a.toText ≠ inQuotes inner

def Name.asText (name : Name) : Name := .text name.toText

structure Node.RendersAs (node node' : Node) : Prop where
  name_eq : node'.name = node.name.asText
  isStart : node.isStart.RendersAs node'.isStart
  isFinal : node.isFinal.RendersAs node'.isFinal

structure Link.RendersAs (link link' : Link) : Prop where
  source_eq : link'.source = link.source.asText
  target_eq : link'.target = link.target.asText
  label : link.label.RendersAs link'.label

/-- A rendering has every node once and every edge at least once, and nothing else. -/
structure RendersAs (g g' : Graph) : Prop where
  nodes : ∃ nodes, nodes.Perm g.nodes ∧ List.Forall₂ Node.RendersAs nodes g'.nodes
  links_kept : ∀ link ∈ g.links, ∃ link' ∈ g'.links, link.RendersAs link'
  links_known : ∀ link' ∈ g'.links, ∃ link ∈ g.links, link.RendersAs link'

/-! ## Flags and labels -/

theorem toList_inQuotes (text : String) :
    (inQuotes text).toList = '"' :: (text.toList ++ ['"']) := by
  simp [inQuotes]

theorem unquote_inQuotes (text : String) : unquote (inQuotes text).toList = text.toList := by
  simp [toList_inQuotes, unquote]

theorem unquote_eq_self {text : String} (h : ∀ inner, text ≠ inQuotes inner) :
    unquote text.toList = text.toList := by
  unfold unquote
  split
  · rename_i rest hlist
    refine if_neg fun hlast => h (String.ofList rest.dropLast) ?_
    have hrest : rest = rest.dropLast ++ ['"'] :=
      (List.dropLast_append_getLast? _ hlast).symm
    rw [← String.toList_inj, toList_inQuotes, String.toList_ofList, hlist, ← hrest]
  · rfl

theorem ne_inQuotes_iff {text : String} :
    (∀ inner, text ≠ inQuotes inner) ↔ unquote text.toList = text.toList := by
  refine ⟨unquote_eq_self, ?_⟩
  rintro h inner rfl
  rw [unquote_inQuotes, toList_inQuotes] at h
  have hlength := congrArg List.length h
  simp only [List.length_cons, List.length_append] at hlength
  omega

instance : Decidable (a.RendersAs b) :=
  decidable_of_iff
    (b = .text (inQuotes a.toText) ∨
      b = .text a.toText ∧ unquote a.toText.toList = a.toText.toList)
    (or_congr_right (and_congr_right' ne_inQuotes_iff.symm))

instance {node node' : Node} : Decidable (node.RendersAs node') :=
  decidable_of_iff
    (node'.name = node.name.asText ∧ node.isStart.RendersAs node'.isStart ∧
      node.isFinal.RendersAs node'.isFinal)
    ⟨fun h => ⟨h.1, h.2.1, h.2.2⟩, fun h => ⟨h.name_eq, h.isStart, h.isFinal⟩⟩

instance {link link' : Link} : Decidable (link.RendersAs link') :=
  decidable_of_iff
    (link'.source = link.source.asText ∧ link'.target = link.target.asText ∧
      link.label.RendersAs link'.label)
    ⟨fun h => ⟨h.1, h.2.1, h.2.2⟩, fun h => ⟨h.source_eq, h.target_eq, h.label⟩⟩

theorem Attribute.RendersAs.plainText_eq (h : a.RendersAs b) : b.plainText = a.toText := by
  have hunquote : unquote b.toText.toList = a.toText.toList := by
    rcases h with rfl | ⟨rfl, hbare⟩
    · exact unquote_inQuotes _
    · exact unquote_eq_self hbare
  rw [Attribute.plainText, hunquote, String.ofList_toList]

theorem Attribute.RendersAs.isSet_eq {s : Bool} (h : (Attribute.flag s).RendersAs b) :
    b.isSet = s := by
  rw [Attribute.isSet, h.plainText_eq]
  cases s <;> decide

theorem Attribute.RendersAs.readLabel_eq (h : (Attribute.text (labelText l)).RendersAs b)
    (hl : l ≠ some silentLabel) : readLabel b = l := by
  have htext : b.plainText = labelText l := h.plainText_eq
  rw [readLabel, htext]
  cases l with
  | none => exact if_pos rfl
  | some x => exact if_neg fun hx => hl (congrArg some hx)

/-! ## Names -/

theorem toNumber_asText (q : State) : (Name.number q).asText.toNumber =
    if digitLimit < digitCount q then .error (.tooManyDigits (digitCount q)) else .ok q :=
  readInteger_toString q

theorem stateOf_asText (h : digitCount q ≤ digitLimit) :
    stateOf (Name.number q).asText = q := by
  rw [stateOf, toNumber_asText, if_neg (by omega)]

theorem nameFault?_asText (q : State) : nameFault? (Name.number q).asText =
    if digitLimit < digitCount q then
      some (.badName (toString q) (.tooManyDigits (digitCount q)))
    else none := by
  rw [nameFault?, toNumber_asText]
  by_cases hlong : digitLimit < digitCount q
  · rw [if_pos hlong, if_pos hlong]
    rfl
  · rw [if_neg hlong, if_neg hlong]

/-- The states that names spell are those that have been written. -/
theorem mem_map_stateOf {names : List Name} {states : List State}
    (hnames : ∀ name, name ∈ names ↔ ∃ q ∈ states, (Name.number q).asText = name)
    (hshort : ∀ q ∈ states, digitCount q ≤ digitLimit) :
    q ∈ names.map stateOf ↔ q ∈ states := by
  rw [List.mem_map]
  constructor
  · rintro ⟨name, hname, rfl⟩
    obtain ⟨q, hq, rfl⟩ := (hnames name).1 hname
    rwa [stateOf_asText (hshort q hq)]
  · exact fun hq => ⟨_, (hnames _).2 ⟨q, hq, rfl⟩, stateOf_asText (hshort q hq)⟩

/-! ## The parts of a rendering -/

/-- Related elements that a test selects alike have the same images, in the same order. -/
theorem map_filter_of_forall₂ {α β : Type} {R : α → α → Prop} {xs ys : List α} {p : α → Bool}
    {f f' : α → β} (h : List.Forall₂ R xs ys) (hp : ∀ x y, R x y → p y = p x)
    (hf : ∀ x y, R x y → f' y = f x) : (ys.filter p).map f' = (xs.filter p).map f := by
  induction h with
  | nil => rfl
  | @cons x y xs ys hxy _ ih =>
    simp only [List.filter_cons, hp x y hxy]
    split
    · rw [List.map_cons, List.map_cons, hf x y hxy, ih]
    · exact ih

namespace RendersAs

section

variable (hg : (ofNFA n).RendersAs g)

include hg

/-- The names of the nodes that a flag selects are those of the graph, in some order. -/
theorem selected_perm {p : Node → Bool}
    (hp : ∀ node node', node ∈ (ofNFA n).nodes → node.RendersAs node' → p node' = p node) :
    ((g.nodes.filter p).map Node.name).Perm
      ((((ofNFA n).nodes.filter p).map Node.name).map Name.asText) := by
  obtain ⟨nodes, hperm, hnodes⟩ := hg.nodes
  have hrelated := (List.forall₂_and_left _ _).2 ⟨fun node hnode => hperm.mem_iff.1 hnode, hnodes⟩
  rw [List.map_map, map_filter_of_forall₂ hrelated (fun node node' h => hp node node' h.1 h.2)
    fun node node' h => h.2.name_eq]
  exact (hperm.filter p).map _

theorem startNames_eq (h : n.IsValid) :
    (g.nodes.filter fun node => node.isStart.isSet).map Node.name =
      [(Name.number n.start).asText] := by
  have hperm := hg.selected_perm (p := fun node => node.isStart.isSet) fun node node' hmem hr => by
    obtain ⟨q, -, rfl⟩ := List.mem_map.1 hmem
    exact hr.isStart.isSet_eq.trans (isSet_flag _).symm
  rw [startNames_ofNFA h] at hperm
  exact List.perm_singleton.1 hperm

theorem mem_finalNames (h : n.IsValid) :
    name ∈ g.finalNames ↔ ∃ q ∈ n.final, (Name.number q).asText = name := by
  have hperm : g.finalNames.Perm ((ofNFA n).finalNames.map Name.asText) :=
    hg.selected_perm fun node node' hmem hr => by
      obtain ⟨q, -, rfl⟩ := List.mem_map.1 hmem
      exact hr.isFinal.isSet_eq.trans (isSet_flag _).symm
  rw [hperm.mem_iff, finalNames_ofNFA, List.map_map, List.mem_map]
  constructor
  · rintro ⟨q, hq, rfl⟩
    exact ⟨q, by simpa using (List.mem_filter.1 hq).2, rfl⟩
  · rintro ⟨q, hq, rfl⟩
    exact ⟨q, List.mem_filter.2 ⟨h.final_mem q hq, by simpa using hq⟩, rfl⟩

theorem mem_names :
    name ∈ g.nodes.map Node.name ↔ ∃ q ∈ n.states, (Name.number q).asText = name := by
  have hperm := hg.selected_perm (p := fun _ => true) fun _ _ _ _ => rfl
  rw [List.filter_true, List.filter_true] at hperm
  rw [hperm.mem_iff]
  simp [ofNFA]

theorem exists_link {e : Edge Label} (he : e ∈ n.edges) : ∃ link ∈ g.links,
    link.source = (Name.number e.source).asText ∧ link.target = (Name.number e.target).asText ∧
      (Attribute.text (labelText e.label)).RendersAs link.label := by
  obtain ⟨link, hlink, hr⟩ := hg.links_kept _ (List.mem_map.2 ⟨e, he, rfl⟩)
  exact ⟨link, hlink, hr.source_eq, hr.target_eq, hr.label⟩

theorem exists_edge {link : Link} (hlink : link ∈ g.links) : ∃ e ∈ n.edges,
    link.source = (Name.number e.source).asText ∧ link.target = (Name.number e.target).asText ∧
      (Attribute.text (labelText e.label)).RendersAs link.label := by
  obtain ⟨_, hmem, hr⟩ := hg.links_known link hlink
  obtain ⟨e, he, rfl⟩ := List.mem_map.1 hmem
  exact ⟨e, he, hr.source_eq, hr.target_eq, hr.label⟩

/-- All names that are looked at are names of states, and every state is looked at. -/
theorem mem_namesInOrder (h : n.IsValid) :
    name ∈ g.namesInOrder ↔ ∃ q ∈ n.states, (Name.number q).asText = name := by
  have hends : ∀ link ∈ g.links, ∃ q ∈ n.states, (Name.number q).asText = link.target := by
    intro link hlink
    obtain ⟨e, he, -, htarget, -⟩ := hg.exists_edge hlink
    exact ⟨e.target, h.target_mem e he, htarget.symm⟩
  simp only [namesInOrder, List.mem_append, hg.mem_finalNames h, List.mem_flatMap, hg.mem_names]
  constructor
  · rintro ((⟨q, hq, rfl⟩ | ⟨source, hsource, target, htarget, hname⟩) | hq)
    · exact ⟨q, h.final_mem q hq, rfl⟩
    · obtain ⟨link, hlink, rfl⟩ := List.mem_map.1 (List.mem_eraseDups.1 htarget)
      rcases List.mem_pair.1 hname with rfl | rfl
      · exact hsource
      · exact hends link (List.mem_of_mem_filter hlink)
    · exact hq
  · exact .inr

/-- An edge is read where one of the automaton's has been written. -/
theorem mem_map_links (h : n.IsValid) (hsilent : silentLabel ∉ n.usedSymbols)
    (hshort : ∀ q ∈ n.states, digitCount q ≤ digitLimit) {e : Edge Label} :
    (e ∈ g.links.map fun link =>
      ⟨stateOf link.source, readLabel link.label, stateOf link.target⟩) ↔ e ∈ n.edges := by
  have hread : ∀ e ∈ n.edges, ∀ link : Link, link.source = (Name.number e.source).asText →
      link.target = (Name.number e.target).asText →
      (Attribute.text (labelText e.label)).RendersAs link.label →
      (⟨stateOf link.source, readLabel link.label, stateOf link.target⟩ : Edge Label) = e := by
    rintro ⟨p, l, q⟩ he link hsource htarget hlabel
    have hl : l ≠ some silentLabel := fun hl =>
      hsilent (NFA.mem_usedSymbols.2 ⟨p, q, hl ▸ he⟩)
    rw [hsource, htarget, hlabel.readLabel_eq hl, stateOf_asText (hshort _ (h.source_mem _ he)),
      stateOf_asText (hshort _ (h.target_mem _ he))]
  rw [List.mem_map]
  constructor
  · rintro ⟨link, hlink, rfl⟩
    obtain ⟨e, he, hsource, htarget, hlabel⟩ := hg.exists_edge hlink
    rwa [hread e he link hsource htarget hlabel]
  · intro he
    obtain ⟨link, hlink, hsource, htarget, hlabel⟩ := hg.exists_link he
    exact ⟨link, hlink, hread e he link hsource htarget hlabel⟩

/-! ## Reading a rendering -/

/-- Up to the limit of digits every automaton is read back. -/
theorem toNFA_eq_ok (h : n.IsValid) (hsilent : silentLabel ∉ n.usedSymbols)
    (hshort : ∀ q ∈ n.states, digitCount q ≤ digitLimit) :
    g.toNFA = .ok (.ofParts n.states n.start n.final n.edges []) := by
  have hfault : g.fault? = none := by
    refine if_pos (List.all_eq_true.2 fun node hnode => ?_)
    obtain ⟨q, hq, hname⟩ := hg.mem_names.1 (List.mem_map_of_mem hnode)
    rw [← hname, nameFault?_asText, if_neg (Nat.not_lt.2 (hshort q hq))]
    rfl
  have hstates : ∀ q, q ∈ (g.nodes.map fun node => stateOf node.name) ↔ q ∈ n.states := fun q => by
    rw [← mem_map_stateOf (fun name => hg.mem_names) hshort, List.map_map]
    rfl
  have hfinal : ∀ q, q ∈ g.finalNames.map stateOf ↔ q ∈ n.final := fun q =>
    mem_map_stateOf (fun name => hg.mem_finalNames h) fun q hq => hshort q (h.final_mem q hq)
  rw [toNFA, hg.startNames_eq h]
  dsimp only
  rw [hfault, stateOf_asText (hshort _ h.start_mem)]
  exact congrArg Except.ok
    (NFA.ofParts_congr hstates hfinal fun p l q => hg.mem_map_links h hsilent hshort)

/-- Beyond the limit the name of some state is refused. -/
theorem toNFA_eq_error (h : n.IsValid) (hlong : ∃ q ∈ n.states, digitLimit < digitCount q) :
    ∃ q ∈ n.states, digitLimit < digitCount q ∧
      g.toNFA = .error (.badName (toString q) (.tooManyDigits (digitCount q))) := by
  obtain ⟨long, hmem, hcount⟩ := hlong
  have hname : nameFault? (Name.number long).asText ≠ none := by
    rw [nameFault?_asText, if_pos hcount]
    exact Option.some_ne_none _
  have hfault : g.fault? = g.namesInOrder.findSome? nameFault? := by
    refine if_neg fun hall => hname ?_
    obtain ⟨node, hnode, heq⟩ := List.mem_map.1 (hg.mem_names.2 ⟨long, hmem, rfl⟩)
    exact Option.isNone_iff_eq_none.1 (heq ▸ List.all_eq_true.1 hall node hnode)
  obtain ⟨e, he⟩ : ∃ e, g.namesInOrder.findSome? nameFault? = some e := by
    refine Option.ne_none_iff_exists'.1 fun hnone => hname ?_
    exact List.findSome?_eq_none_iff.1 hnone _ ((hg.mem_namesInOrder h).2 ⟨long, hmem, rfl⟩)
  obtain ⟨name, hfound, hbad⟩ := List.exists_of_findSome?_eq_some he
  obtain ⟨q, hq, rfl⟩ := (hg.mem_namesInOrder h).1 hfound
  rw [nameFault?_asText] at hbad
  split at hbad
  · rename_i hcount
    refine ⟨q, hq, hcount, ?_⟩
    rw [toNFA, hg.startNames_eq h]
    dsimp only
    rw [hfault, he, ← Option.some.inj hbad]
  · cases hbad

end

end RendersAs

/-- However the graph of an automaton without moves under the symbol `ε` is rendered, the automaton
is read back if all its states have few enough digits, and some state with too many is refused if
there is one. The graph of a deterministic automaton is that of its moves without silent ones. -/
theorem toNFA_of_rendersAs (h : n.IsValid) (hsilent : silentLabel ∉ n.usedSymbols)
    (hg : (ofNFA n).RendersAs g) :
    ((∀ q ∈ n.states, digitCount q ≤ digitLimit) →
      ∃ back, g.toNFA = .ok back ∧ back.IsValid ∧ back.states = n.states ∧
        back.start = n.start ∧ back.final = n.final ∧ back.edges = n.edges) ∧
    ((∃ q ∈ n.states, digitLimit < digitCount q) →
      ∃ q ∈ n.states, digitLimit < digitCount q ∧
        g.toNFA = .error (.badName (toString q) (.tooManyDigits (digitCount q)))) := by
  refine ⟨fun hshort => ⟨_, hg.toNFA_eq_ok h hsilent hshort, ?_, ?_, rfl, ?_, ?_⟩,
    hg.toNFA_eq_error h⟩
  · exact NFA.ofParts_isValid h.start_mem h.final_mem fun e he =>
      ⟨h.source_mem e he, h.target_mem e he⟩
  · exact Ascending.ofList_eq_self h.states_ascending
  · exact Ascending.ofList_eq_self h.final_ascending
  · exact Ascending.ofList_eq_self h.edges_ascending

/-- Negative names, a quote, two quotes and the empty text as symbols, a silent move, and an edge
that comes twice, once in quotes and once bare. -/
theorem toNFA_of_rendersAs_mixed :
    let n : NFA := .ofParts [-12, 0, 7] (-12) [0, 7]
      [⟨-12, some "\"", 0⟩, ⟨-12, none, 7⟩, ⟨7, some "", 0⟩, ⟨7, some "\"\"", -12⟩] []
    let g : Graph :=
      ⟨[⟨.text "7", .text "False", .text "\"True\""⟩, ⟨.text "-12", .text "True", .text "False"⟩,
          ⟨.text "0", .text "\"False\"", .text "True"⟩],
        [⟨.text "7", .text "0", .text "\"\""⟩, ⟨.text "-12", .text "7", .text "ε"⟩,
          ⟨.text "7", .text "-12", .text "\"\"\"\""⟩, ⟨.text "-12", .text "0", .text "\""⟩,
          ⟨.text "-12", .text "7", .text "\"ε\""⟩]⟩
    n.IsValid ∧ silentLabel ∉ n.usedSymbols ∧ (ofNFA n).RendersAs g ∧
      (∀ q ∈ n.states, digitCount q ≤ digitLimit) ∧
      ∃ back, g.toNFA = .ok back ∧ back.IsValid ∧ back.states = n.states ∧
        back.start = n.start ∧ back.final = n.final ∧ back.edges = n.edges := by
  intro n g
  have hvalid : n.IsValid := NFA.ofParts_isValid (by decide) (by decide) (by decide)
  have hsilent : silentLabel ∉ n.usedSymbols := by decide +kernel
  have hg : (ofNFA n).RendersAs g := by
    refine ⟨⟨[(ofNFA n).nodes[2], (ofNFA n).nodes[0], (ofNFA n).nodes[1]], ?_, ?_⟩, ?_, ?_⟩ <;>
      decide +kernel
  have hshort : ∀ q ∈ n.states, digitCount q ≤ digitLimit := by decide +kernel
  exact ⟨hvalid, hsilent, hg, hshort, (toNFA_of_rendersAs hvalid hsilent hg).1 hshort⟩

/-- The graph of a single state, rendered with bare flags. -/
theorem single_rendersAs (q : State) :
    (ofNFA (.ofParts [q] q [] [] [])).RendersAs
      ⟨[⟨(Name.number q).asText, .text "True", .text "False"⟩], []⟩ := by
  have hstates : (NFA.ofParts [q] q [] [] []).states = [q] :=
    Ascending.ofList_eq_self (List.pairwise_singleton _ _)
  have hgraph : ofNFA (.ofParts [q] q [] [] []) =
      ⟨[⟨.number q, .flag true, .flag false⟩], []⟩ := by
    rw [ofNFA, hstates, List.map_singleton, show (q == (NFA.ofParts [q] q [] [] []).start) = true
      from beq_self_eq_true q]
    rfl
  have hstart : (Attribute.flag true).RendersAs (.text "True") := by decide +kernel
  have hfinal : (Attribute.flag false).RendersAs (.text "False") := by decide +kernel
  rw [hgraph]
  exact ⟨⟨_, .refl _, .cons ⟨rfl, hstart, hfinal⟩ .nil⟩, List.forall_mem_nil _,
    List.forall_mem_nil _⟩

/-- A state of one digit too many is not read back. -/
theorem not_toNFA_of_rendersAs_long :
    let q : State := 10 ^ digitLimit
    let n : NFA := .ofParts [q] q [] [] []
    let g : Graph := ⟨[⟨(Name.number q).asText, .text "True", .text "False"⟩], []⟩
    n.IsValid ∧ silentLabel ∉ n.usedSymbols ∧ (ofNFA n).RendersAs g ∧
      g.toNFA = .error (.badName (toString q) (.tooManyDigits (digitLimit + 1))) := by
  intro q n g
  have hvalid : n.IsValid := NFA.ofParts_isValid (by simp) (by simp) (by simp)
  have hg : (ofNFA n).RendersAs g := single_rendersAs q
  have hcount : digitCount q = digitLimit + 1 := digitCount_pow (by decide)
  have hmem : ∀ r, r ∈ n.states ↔ r = q := fun r => Ascending.mem_ofList.trans List.mem_singleton
  obtain ⟨r, hr, -, herror⟩ := hg.toNFA_eq_error hvalid ⟨q, (hmem q).2 rfl, by omega⟩
  rw [(hmem r).1 hr, hcount] at herror
  exact ⟨hvalid, by decide, hg, herror⟩

end RegularLanguage.Graph
