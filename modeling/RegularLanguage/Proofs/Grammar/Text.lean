import RegularLanguage.Grammar.Text
import RegularLanguage.Proofs.DFA.Table
import RegularLanguage.Proofs.Grammar.RightLinear
import RegularLanguage.Proofs.Search.Grouping
/-!
# Grammars of automata are read off their texts

Terminals of one character may be spaces, bars, line feeds or letters of names, which the text of a
grammar uses itself. The text of a body can still be told from what stands behind it, a bar between
two spaces or the end of the line (`delimited_body`). So the text of a right-linear grammar
determines its lines and productions (`lines_eq_of_toText_eq`, `mem_productions_of_lines_eq`), and
thereby the words that the automaton accepts (`DFA.productions_and_words_of_toText_eq`).

| here | `relang` |
| --- | --- |
| `lines` | `bodies` of `grammar_to_text` |
-/

namespace RegularLanguage

open Text

namespace Grammar

variable {g g' : Grammar} {v : Variable} {p p' : Production} {text : String}

/-! ## Texts of bodies -/

/-- The text is a character, then perhaps a space and the letter of states, and from there on has
neither spaces nor line feeds. -/
def IsBodyText (text : String) : Prop := ∃ c link rest, text.toList = c :: (link ++ rest) ∧
  (link = [] ∨ link = [' ', 'q']) ∧ ∀ c ∈ rest, c ≠ ' ' ∧ c ≠ '\n'

def EndsBody (s : List Char) : Prop := (∃ s', s = ' ' :: '|' :: s') ∨ ∃ s', s = '\n' :: s'

theorem endsBody_bar (s : List Char) : EndsBody (" | ".toList ++ s) := .inl ⟨_, rfl⟩

theorem endsBody_lineFeed (s : List Char) : EndsBody ("\n".toList ++ s) := .inr ⟨_, rfl⟩

theorem bar_append_ne (s t : List Char) : " | ".toList ++ s ≠ "\n".toList ++ t := by simp

/-- What stands behind a body is not taken for the rest of it. -/
theorem append_ne_link {rest s t : List Char} (hrest : ∀ c ∈ rest, c ≠ ' ' ∧ c ≠ '\n')
    (hs : EndsBody s) : rest ++ s ≠ ' ' :: 'q' :: t := by
  intro h
  cases rest with
  | nil => rcases hs with ⟨s', rfl⟩ | ⟨s', rfl⟩ <;> simp at h
  | cons c rest => exact (hrest c List.mem_cons_self).1 (List.cons.inj h).1

theorem delimited_body : Delimited IsBodyText String.toList EndsBody := by
  rintro x y s t ⟨c, link, rest, hx, hlink, hrest⟩ ⟨c', link', rest', hy, hlink', hrest'⟩ hs ht h
  rw [hx, hy, List.cons_append, List.cons_append, List.append_assoc, List.append_assoc] at h
  obtain ⟨hc, h⟩ := List.cons.inj h
  have hlinks : link = link' := by
    rcases hlink with rfl | rfl <;> rcases hlink' with rfl | rfl
    · rfl
    · have hbar : rest ++ s = ' ' :: 'q' :: (rest' ++ t) := h
      exact absurd hbar (append_ne_link hrest hs)
    · have hbar : rest' ++ t = ' ' :: 'q' :: (rest ++ s) := h.symm
      exact absurd hbar (append_ne_link hrest' ht)
    · rfl
  rw [hlinks] at h
  have hgood : ∀ rest : List Char, (∀ c ∈ rest, c ≠ ' ' ∧ c ≠ '\n') →
      ∀ c ∈ rest, (c != ' ' && c != '\n') = true := fun rest hrest c hc => by simp [hrest c hc]
  have hend : ∀ s, EndsBody s → ∀ c ∈ s.head?, (c != ' ' && c != '\n') = false := by
    rintro s (⟨s, rfl⟩ | ⟨s, rfl⟩) <;> simp
  obtain ⟨hrests, hst⟩ := append_inj_of_forall (hgood rest hrest) (hgood rest' hrest') (hend s hs)
    (hend t ht) (List.append_cancel_left h)
  exact ⟨String.toList_inj.1 (by rw [hx, hy, hc, hlinks, hrests]), hst⟩

/-! ## Lines of variables -/

theorem Variable.name_inj {v w : Variable} (h : v.name = w.name) : v = w := by
  have hname : ∀ q, "S" ≠ DFA.stateName q := fun q => DFA.ne_stateName (by simp)
  cases v with
  | start =>
    cases w with
    | start => rfl
    | state r => exact absurd h (hname r)
  | state q =>
    cases w with
    | start => exact absurd h.symm (hname q)
    | state r => exact congrArg state (DFA.stateName_inj.1 h)

theorem Variable.space_not_mem_name (v : Variable) : ' ' ∉ v.name.toList := by
  cases v with
  | start => decide
  | state q => exact DFA.not_mem_stateName (by decide) (by decide) rfl

/-- The characters of a line that shows a variable and the texts of bodies. -/
def lineChars (line : Variable × List String) : List Char :=
  line.1.name.toList ++ (" -> ".toList ++
    (" | ".toList.intercalate (line.2.map String.toList) ++ "\n".toList))

theorem lineChars_append (line : Variable × List String) (s : List Char) :
    lineChars line ++ s = line.1.name.toList ++ (" -> ".toList ++
      (" | ".toList.intercalate (line.2.map String.toList) ++ "\n".toList ++ s)) := by
  simp only [lineChars, List.append_assoc]

/-- Lines are known together with their ends. -/
theorem delimited_line :
    Delimited (fun line : Variable × List String => line.2 ≠ [] ∧ ∀ text ∈ line.2, IsBodyText text)
      lineChars fun _ => True := by
  have hname : ∀ v : Variable, ∀ c ∈ v.name.toList, (c != ' ') = true := fun v c hc =>
    bne_iff_ne.2 (ne_of_mem_of_not_mem hc v.space_not_mem_name)
  rintro ⟨v, xs⟩ ⟨w, ys⟩ s t hxs hys - - h
  rw [lineChars_append, lineChars_append] at h
  obtain ⟨hvw, hrest⟩ := append_inj_of_forall (hname v) (hname w) (by simp) (by simp) h
  obtain ⟨hbodies, hst⟩ := delimited_body.joined endsBody_bar endsBody_lineFeed bar_append_ne
    xs ys s t hxs hys trivial trivial (List.append_cancel_left hrest)
  exact ⟨by rw [Variable.name_inj (String.toList_inj.1 hvw), hbodies], hst⟩

/-- The lines of a grammar: its variables, each with the texts of its bodies. -/
def lines (g : Grammar) : List (Variable × List String) :=
  let bodies : Grouping Variable String :=
    .ofPairs (g.productions.map fun p => (p.head, bodyText p.body))
  bodies.toList.map fun (head, texts) =>
    (head, texts.mergeSort fun a b => (compare a b).isLE)

theorem toList_toText (g : Grammar) : g.toText.toList = g.lines.flatMap lineChars := by
  have hline : ∀ v texts, (lineText v texts).toList =
      lineChars (v, texts.mergeSort fun a b => (compare a b).isLE) := fun v texts => by
    simp [lineText, lineChars, String.toList_intercalate]
  simp only [toText, lines, String.toList_join, List.flatMap_map, hline]

/-- The lines show the texts of all bodies, and nothing else. -/
theorem mem_lines {texts : List String} (h : (v, texts) ∈ g.lines) :
    text ∈ texts ↔ ∃ p ∈ g.productions, p.head = v ∧ bodyText p.body = text := by
  obtain ⟨⟨v', texts'⟩, hgroup, heq⟩ := List.mem_map.1 h
  cases heq
  obtain ⟨rfl, -⟩ := Grouping.mem_toList_ofPairs.1 hgroup
  simp [List.mem_mergeSort, Grouping.mem_values_ofPairs]

/-- There is a line for each variable that has productions, and for no other. -/
theorem exists_mem_lines_iff :
    (∃ texts, (v, texts) ∈ g.lines) ↔ ∃ p ∈ g.productions, p.head = v := by
  constructor
  · rintro ⟨texts, h⟩
    obtain ⟨⟨v', texts'⟩, hgroup, heq⟩ := List.mem_map.1 h
    cases heq
    obtain ⟨-, text, hpair⟩ := Grouping.mem_toList_ofPairs.1 hgroup
    obtain ⟨p, hp, heq⟩ := List.mem_map.1 hpair
    exact ⟨p, hp, congrArg Prod.fst heq⟩
  · rintro ⟨p, hp, rfl⟩
    have hpair := List.mem_map_of_mem (f := fun p => (p.head, bodyText p.body)) hp
    exact ⟨_, List.mem_map.2 ⟨_, Grouping.mem_toList_ofPairs.2 ⟨rfl, _, hpair⟩, rfl⟩⟩

theorem ne_nil_of_mem_lines {texts : List String} (h : (v, texts) ∈ g.lines) : texts ≠ [] := by
  obtain ⟨p, hp, hv⟩ := exists_mem_lines_iff.1 ⟨texts, h⟩
  exact List.ne_nil_of_mem ((mem_lines h).2 ⟨p, hp, hv, rfl⟩)

/-! ## Right-linear productions -/

/-- The start variable is replaced by that of a state or by nothing, the variable of a state by a
terminal of one character with or without the variable of a state behind it. -/
inductive IsRightLinear : Production → Prop where
  | enter (q : State) : IsRightLinear ⟨.start, [.nonterminal (.state q)]⟩
  | stop : IsRightLinear ⟨.start, []⟩
  | move (q r : State) {a : Symbol} (h : a.length = 1) :
      IsRightLinear ⟨.state q, [.terminal a, .nonterminal (.state r)]⟩
  | last (q : State) {a : Symbol} (h : a.length = 1) : IsRightLinear ⟨.state q, [.terminal a]⟩

/-- A body that is not empty is written as its items are, with spaces between them. -/
theorem bodyText_of_ne {body : List Item}
    (h : " ".toList.intercalate (body.map fun i => i.text.toList) ≠ []) :
    (bodyText body).toList = " ".toList.intercalate (body.map fun i => i.text.toList) := by
  have htext : (" ".intercalate (body.map Item.text)).toList =
      " ".toList.intercalate (body.map fun i => i.text.toList) := by
    simp [String.toList_intercalate, Function.comp_def]
  have hne : (" ".intercalate (body.map Item.text)).isEmpty ≠ true := fun hempty => by
    rw [String.isEmpty_iff.1 hempty] at htext
    exact h htext.symm
  rw [bodyText, if_neg hne, htext]

theorem bodyText_enter (q : State) :
    (bodyText [.nonterminal (.state q)]).toList = 'q' :: (toString q).toList := by
  have hname : (Item.nonterminal (.state q)).text.toList = 'q' :: (toString q).toList :=
    DFA.toList_stateName q
  rw [bodyText_of_ne] <;> simp [hname]

theorem bodyText_move (a : Symbol) (r : State) :
    (bodyText [.terminal a, .nonterminal (.state r)]).toList =
      a.toList ++ ' ' :: 'q' :: (toString r).toList := by
  have hname : (Variable.state r).name.toList = 'q' :: (toString r).toList :=
    DFA.toList_stateName r
  rw [bodyText_of_ne] <;> simp [hname, Item.text]

theorem bodyText_last {a : Symbol} (h : a.length = 1) :
    (bodyText [.terminal a]).toList = a.toList := by
  have hne : a.toList ≠ [] := List.ne_nil_of_length_eq_add_one (String.length_toList.trans h)
  rw [bodyText_of_ne] <;> simp [hne, Item.text]

theorem bodyText_enter_ne_stop (q : State) : bodyText [.nonterminal (.state q)] ≠ bodyText [] := by
  intro h
  have htext := congrArg String.toList h
  rw [bodyText_enter] at htext
  exact absurd (List.cons.inj htext).1 (by decide)

theorem bodyText_move_ne_last {a b : Symbol} (r : State) (hb : b.length = 1) :
    bodyText [.terminal a, .nonterminal (.state r)] ≠ bodyText [.terminal b] := by
  intro h
  have hlength := congrArg (fun text : String => text.toList.length) h
  simp only [bodyText_move, bodyText_last hb, String.length_toList, hb, List.length_append,
    List.length_cons] at hlength
  omega

theorem IsRightLinear.isBodyText (h : IsRightLinear p) : IsBodyText (bodyText p.body) := by
  have hnumber : ∀ q : State, ∀ c ∈ (toString q).toList, c ≠ ' ' ∧ c ≠ '\n' := by
    intro q c hc
    have hname : c ∈ (DFA.stateName q).toList := by
      rw [DFA.toList_stateName]
      exact List.mem_cons_of_mem _ hc
    exact ⟨ne_of_mem_of_not_mem hname (DFA.not_mem_stateName (by decide) (by decide) rfl),
      ne_of_mem_of_not_mem hname (DFA.not_mem_stateName (by decide) (by decide) rfl)⟩
  cases h with
  | enter q => exact ⟨'q', [], _, bodyText_enter q, .inl rfl, hnumber q⟩
  | stop => exact ⟨'ε', [], [], rfl, .inl rfl, by simp⟩
  | @move q r a ha =>
    obtain ⟨c, hc⟩ := List.length_eq_one_iff.1 (String.length_toList.trans ha)
    refine ⟨c, [' ', 'q'], (toString r).toList, ?_, .inr rfl, hnumber r⟩
    rw [bodyText_move, hc]
    rfl
  | @last q a ha =>
    obtain ⟨c, hc⟩ := List.length_eq_one_iff.1 (String.length_toList.trans ha)
    exact ⟨c, [], [], (bodyText_last ha).trans hc, .inl rfl, by simp⟩

/-- The bodies of one variable are told apart by their texts. The text of no symbols is that of the
symbol `ε`, but only the start variable has the one and only those of states have the other. -/
theorem IsRightLinear.eq (h : IsRightLinear p) (h' : IsRightLinear p') (hhead : p.head = p'.head)
    (hbody : bodyText p.body = bodyText p'.body) : p = p' := by
  have htext := congrArg String.toList hbody
  cases h with
  | enter q =>
    cases h' with
    | enter r =>
      rw [bodyText_enter, bodyText_enter] at htext
      rw [toList_toString_inj.1 (List.cons.inj htext).2]
    | stop => exact absurd hbody (bodyText_enter_ne_stop q)
    | move => cases hhead
    | last => cases hhead
  | stop =>
    cases h' with
    | enter r => exact absurd hbody.symm (bodyText_enter_ne_stop r)
    | stop => rfl
    | move => cases hhead
    | last => cases hhead
  | @move q r a ha =>
    cases h' with
    | enter => cases hhead
    | stop => cases hhead
    | @move q' r' a' ha' =>
      rw [bodyText_move, bodyText_move] at htext
      obtain ⟨hsymbol, hnumber⟩ := List.append_inj htext
        ((String.length_toList.trans ha).trans (String.length_toList.trans ha').symm)
      have hr : r = r' := toList_toString_inj.1 (List.cons.inj (List.cons.inj hnumber).2).2
      cases hhead
      rw [String.toList_inj.1 hsymbol, hr]
    | last _ ha' => exact absurd hbody (bodyText_move_ne_last r ha')
  | @last q a ha =>
    cases h' with
    | enter => cases hhead
    | stop => cases hhead
    | move _ r => exact absurd hbody.symm (bodyText_move_ne_last r ha)
    | last _ ha' =>
      rw [bodyText_last ha, bodyText_last ha'] at htext
      cases hhead
      rw [String.toList_inj.1 htext]

/-- Lines that are the same show the same productions. -/
theorem mem_productions_of_lines_eq (hg : ∀ p ∈ g.productions, IsRightLinear p)
    (hg' : ∀ p ∈ g'.productions, IsRightLinear p) (h : g.lines = g'.lines)
    (hp : p ∈ g.productions) : p ∈ g'.productions := by
  obtain ⟨texts, hline⟩ := exists_mem_lines_iff.2 ⟨p, hp, rfl⟩
  have hshown : bodyText p.body ∈ texts := (mem_lines hline).2 ⟨p, hp, rfl, rfl⟩
  obtain ⟨p', hp', hhead, hbody⟩ := (mem_lines (h ▸ hline)).1 hshown
  rwa [(hg p hp).eq (hg' p' hp') hhead.symm hbody.symm]

/-- The text of a right-linear grammar determines its lines. -/
theorem lines_eq_of_toText_eq (hg : ∀ p ∈ g.productions, IsRightLinear p)
    (hg' : ∀ p ∈ g'.productions, IsRightLinear p) (h : g.toText = g'.toText) :
    g.lines = g'.lines := by
  have hbodies : ∀ g : Grammar, (∀ p ∈ g.productions, IsRightLinear p) → ∀ line ∈ g.lines,
      line.2 ≠ [] ∧ ∀ text ∈ line.2, IsBodyText text := by
    rintro g hg ⟨v, texts⟩ hline
    refine ⟨ne_nil_of_mem_lines hline, fun text htext => ?_⟩
    obtain ⟨p, hp, -, rfl⟩ := (mem_lines hline).1 htext
    exact (hg p hp).isBodyText
  have hne : ∀ line, lineChars line ≠ [] := fun line => by simp [lineChars]
  have htext := congrArg String.toList h
  rw [toList_toText, toList_toText] at htext
  exact delimited_line.flatMap_inj hne (hbodies g hg) (hbodies g' hg') htext

/-- A grammar with more productions has all derivations of a smaller one. -/
theorem Derives.mono (h : ∀ p ∈ g.productions, p ∈ g'.productions) {form : List Item}
    {used : List Production} {w : Word} (hd : g.Derives form used w) :
    g'.Derives form used w := by
  induction hd with
  | nil => exact .nil
  | terminal a _ ih => exact .terminal a ih
  | produce hp _ ih => exact .produce (h _ hp) ih

end Grammar

namespace DFA

open Grammar

variable {d e : DFA}

theorem toGrammar_isRightLinear (h : d.IsValid) (halphabet : ∀ a ∈ d.alphabet, a.length = 1) :
    ∀ p ∈ d.toGrammar.productions, IsRightLinear p := by
  intro p hp
  rcases (mem_productions h).1 hp with ⟨-, rfl⟩ | ⟨-, rfl⟩ | ⟨q, a, r, hr, -, -, hp⟩
  · exact .enter d.start
  · exact .stop
  · have ha : a.length = 1 := halphabet a (h.mem_of_delta hr).2.1
    rcases hp with rfl | ⟨-, rfl⟩
    · exact .move q r ha
    · exact .last q ha

/-- Automata over symbols of one character whose grammars have the same text have the same
productions, and accept the same words. -/
theorem productions_and_words_of_toText_eq (d e : DFA) (hd : d.IsValid) (he : e.IsValid)
    (hds : ∀ a ∈ d.alphabet, a.length = 1) (hes : ∀ a ∈ e.alphabet, a.length = 1)
    (h : d.toGrammar.toText = e.toGrammar.toText) :
    (∀ p, p ∈ d.toGrammar.productions ↔ p ∈ e.toGrammar.productions) ∧
      ∀ w, d.accepts w = e.accepts w := by
  have hlinear := toGrammar_isRightLinear hd hds
  have hlinear' := toGrammar_isRightLinear he hes
  have hlines := lines_eq_of_toText_eq hlinear hlinear' h
  have hsub : ∀ p ∈ d.toGrammar.productions, p ∈ e.toGrammar.productions := fun p =>
    mem_productions_of_lines_eq hlinear hlinear' hlines
  have hsup : ∀ p ∈ e.toGrammar.productions, p ∈ d.toGrammar.productions := fun p =>
    mem_productions_of_lines_eq hlinear' hlinear hlines.symm
  refine ⟨fun p => ⟨hsub p, hsup p⟩, fun w => ?_⟩
  rw [Bool.eq_iff_iff, ← exists_derives_start_iff hd, ← exists_derives_start_iff he]
  exact ⟨fun ⟨used, hused⟩ => ⟨used, hused.mono hsub⟩,
    fun ⟨used, hused⟩ => ⟨used, hused.mono hsup⟩⟩

/-- Symbols that look like the gaps between items and bodies, and a state that accepts nothing. -/
def crammed : DFA :=
  ofParts [-2, 0, 5] 0 [-2] [⟨-2, "|", 0⟩, ⟨-2, "ε", 5⟩, ⟨0, " ", -2⟩, ⟨0, "q", -2⟩] ["\n"] []

/-- The same without the state that accepts nothing. -/
def thinned : DFA :=
  ofParts [-2, 0] 0 [-2] [⟨-2, "|", 0⟩, ⟨0, " ", -2⟩, ⟨0, "q", -2⟩] [] []

theorem productions_and_words_of_toText_eq_crammed_thinned :
    crammed.IsValid ∧ thinned.IsValid ∧ (∀ a ∈ crammed.alphabet, a.length = 1) ∧
    (∀ a ∈ thinned.alphabet, a.length = 1) ∧
    crammed.toGrammar.toText = thinned.toGrammar.toText ∧
    (∀ p, p ∈ crammed.toGrammar.productions ↔ p ∈ thinned.toGrammar.productions) ∧
    ∀ w, crammed.accepts w = thinned.accepts w := by
  have hd : crammed.IsValid := ofParts_isValid (by decide) (by decide) (by decide) (by decide)
  have he : thinned.IsValid := ofParts_isValid (by decide) (by decide) (by decide) (by decide)
  have hds : ∀ a ∈ crammed.alphabet, a.length = 1 := by decide
  have hes : ∀ a ∈ thinned.alphabet, a.length = 1 := by decide
  have htext : crammed.toGrammar.toText = thinned.toGrammar.toText :=
    congrArg Grammar.toText (by decide)
  exact ⟨hd, he, hds, hes, htext,
    productions_and_words_of_toText_eq crammed thinned hd he hds hes htext⟩

end DFA

end RegularLanguage
