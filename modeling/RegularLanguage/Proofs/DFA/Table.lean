import RegularLanguage.DFA.Table
import RegularLanguage.Proofs.DFA.Run
import RegularLanguage.Proofs.Text.Delimited
/-!
# Tables determine automata

Symbols of one character may be tabulators and line feeds, which a table also uses to separate its
cells and lines. Its first line can still be told from the others: a symbol is followed by one of
the two, and a line of a state begins with neither. So automata with the same table are the same
(`toTable_eq_iff`).

| here | `relang` |
| --- | --- |
| `Row` | a line of `to_table` |
| `marks` | `mark` of `to_table` |
-/

namespace RegularLanguage.DFA

open Text

variable {d e : DFA} {q r : State} {c : Char}

/-! ## Names of states -/

theorem toList_stateName (q : State) : (stateName q).toList = 'q' :: (toString q).toList :=
  String.toList_append

theorem stateName_inj : stateName q = stateName r ↔ q = r := by
  refine ⟨fun h => ?_, congrArg _⟩
  have htext := congrArg String.toList h
  rw [toList_stateName, toList_stateName] at htext
  exact toList_toString_inj.1 (List.cons.inj htext).2

/-- A text that does not begin with the letter of states is no name of one. -/
theorem ne_stateName {text : String} (h : ∀ s, text.toList ≠ 'q' :: s) : text ≠ stateName q :=
  fun htext => h _ (htext ▸ toList_stateName q)

/-- The name of a state is made of a letter, digits, and a minus. -/
theorem not_mem_stateName (hletter : c ≠ 'q') (hminus : c ≠ '-') (hdigit : c.isDigit = false) :
    c ∉ (stateName q).toList := by
  rw [toList_stateName, List.mem_cons, not_or]
  refine ⟨hletter, fun h => ?_⟩
  rcases eq_minus_or_isDigit_of_mem_toString h with hc | hc
  · exact hminus hc
  · exact Bool.false_ne_true (hdigit.symm.trans hc)

/-! ## Lines of states -/

/-- What the line of a state shows. -/
structure Row where
  isFinal : Bool
  isStart : Bool
  state : State
  cells : List (Option State)

namespace Row

def marks (row : Row) : String :=
  (if row.isFinal then "*" else "") ++ if row.isStart then "#" else ""

def text (row : Row) : String :=
  row.marks ++ stateName row.state ++ "\t" ++ "\t".intercalate (row.cells.map cellText)

/-- The text of a line, the line feed included. -/
def line (row : Row) : List Char := row.text.toList ++ "\n".toList

end Row

/-- What the line of a state shows in the table of an automaton. -/
def row (d : DFA) (q : State) : Row where
  isFinal := d.final.contains q
  isStart := decide (q = d.start)
  state := q
  cells := d.alphabet.map (d.delta q)

theorem rowText_eq (d : DFA) (q : State) : d.rowText d.outgoing q = (d.row q).text := by
  simp [rowText, Row.text, Row.marks, row, delta, List.map_map, Function.comp_def]

def rows (d : DFA) : List Row := d.states.map d.row

theorem toList_toTable (d : DFA) : d.toTable.toList =
    '\t' :: ("\t".toList.intercalate (d.alphabet.map String.toList) ++
      ("\n".toList ++ d.rows.flatMap Row.line)) := by
  have hrows : d.states.map (d.rowText d.outgoing) = d.states.map fun q => (d.row q).text :=
    List.map_congr_left fun q _ => rowText_eq d q
  simp only [toTable, hrows, String.toList_append, String.toList_intercalate, List.map_cons,
    List.map_map]
  rw [intercalate_append_eq_flatMap _ (List.cons_ne_nil _ _), List.flatMap_cons, List.flatMap_map]
  simp [rows, Row.line, List.flatMap_map]

/-! ## Telling symbols, cells and lines apart -/

theorem delimited_symbol :
    Delimited (fun a : Symbol => a.length = 1) String.toList fun _ => True := by
  rintro a b s t ha hb - - h
  rw [← String.length_toList] at ha hb
  obtain ⟨hab, hst⟩ := List.append_inj h (ha.trans hb.symm)
  exact ⟨String.toList_inj.1 hab, hst⟩

def isSeparator (c : Char) : Bool := c == '\t' || c == '\n'

/-- The text begins with a character that separates cells or lines. -/
def EndsCell (s : List Char) : Prop := ∃ c s', s = c :: s' ∧ isSeparator c = true

theorem endsCell_tab (s : List Char) : EndsCell ("\t".toList ++ s) := ⟨'\t', s, rfl, rfl⟩

theorem endsCell_lineFeed (s : List Char) : EndsCell ("\n".toList ++ s) := ⟨'\n', s, rfl, rfl⟩

theorem tab_append_ne (s t : List Char) : "\t".toList ++ s ≠ "\n".toList ++ t := by simp

theorem not_isSeparator_of_mem_stateName (h : c ∈ (stateName q).toList) :
    isSeparator c = false := by
  have htab : c ≠ '\t' := ne_of_mem_of_not_mem h (not_mem_stateName (by decide) (by decide) rfl)
  have hfeed : c ≠ '\n' := ne_of_mem_of_not_mem h (not_mem_stateName (by decide) (by decide) rfl)
  simp [isSeparator, htab, hfeed]

theorem cellText_inj {cell cell' : Option State} (h : cellText cell = cellText cell') :
    cell = cell' := by
  have hname : ∀ q, "N" ≠ stateName q := fun q => ne_stateName (by simp)
  cases cell with
  | none =>
    cases cell' with
    | none => rfl
    | some r => exact absurd h (hname r)
  | some q =>
    cases cell' with
    | none => exact absurd h.symm (hname q)
    | some r => exact congrArg some (stateName_inj.1 h)

theorem delimited_cell :
    Delimited (fun _ : Option State => True) (fun cell => (cellText cell).toList) EndsCell := by
  have hgood : ∀ cell, ∀ c ∈ (cellText cell).toList, (!isSeparator c) = true := by
    intro cell c hc
    cases cell with
    | none =>
      obtain rfl := List.mem_singleton.1 hc
      rfl
    | some q => rw [not_isSeparator_of_mem_stateName hc, Bool.not_false]
  rintro cell cell' s t - - ⟨c, s, rfl, hc⟩ ⟨c', t, rfl, hc'⟩ h
  obtain ⟨htext, hrest⟩ := append_inj_of_forall (hgood cell) (hgood cell') (by simp [hc])
    (by simp [hc']) h
  exact ⟨cellText_inj (String.toList_inj.1 htext), hrest⟩

/-- The cells of a line, the line feed included. -/
def cellsLine (cells : List (Option State)) : List Char :=
  "\t".toList.intercalate (cells.map fun cell => (cellText cell).toList) ++ "\n".toList

/-- Equally many cells are known together with the end of their line. Without their number, no cell
and a cell without text would look the same. -/
theorem delimited_cells (k : Nat) :
    Delimited (fun cells : List (Option State) => cells.length = k) cellsLine fun _ => True := by
  rintro cells cells' s t hk hk' - - h
  cases k with
  | zero =>
    obtain rfl := List.length_eq_zero_iff.1 hk
    obtain rfl := List.length_eq_zero_iff.1 hk'
    exact ⟨rfl, List.append_cancel_left h⟩
  | succ k =>
    have hne : cells ≠ [] := List.ne_nil_of_length_eq_add_one hk
    have hne' : cells' ≠ [] := List.ne_nil_of_length_eq_add_one hk'
    exact delimited_cell.joined endsCell_tab endsCell_lineFeed tab_append_ne cells cells' s t
      ⟨hne, fun _ _ => trivial⟩ ⟨hne', fun _ _ => trivial⟩ trivial trivial h

namespace Row

variable {row row' : Row}

theorem marks_inj (h : row.marks = row'.marks) :
    row.isFinal = row'.isFinal ∧ row.isStart = row'.isStart := by
  rcases row with ⟨_ | _, _ | _, q, cells⟩ <;> rcases row' with ⟨_ | _, _ | _, q', cells'⟩ <;>
    simp [marks] at h ⊢

theorem mem_marks (h : c ∈ row.marks.toList) : c = '*' ∨ c = '#' := by
  rcases row with ⟨_ | _, _ | _, q, cells⟩ <;> simp_all [marks]

def head (row : Row) : List Char := row.marks.toList ++ (stateName row.state).toList

theorem line_append (row : Row) (s : List Char) :
    row.line ++ s = row.head ++ '\t' :: (cellsLine row.cells ++ s) := by
  simp [line, text, head, cellsLine, String.toList_intercalate, Function.comp_def]

theorem tab_not_mem_head : '\t' ∉ row.head := by
  rw [head, List.mem_append, not_or]
  refine ⟨fun h => ?_, not_mem_stateName (by decide) (by decide) rfl⟩
  rcases mem_marks h with hc | hc <;> exact absurd hc (by decide)

/-- The marks end where the letter of the state's name stands. -/
theorem head_inj (h : row.head = row'.head) :
    row.isFinal = row'.isFinal ∧ row.isStart = row'.isStart ∧ row.state = row'.state := by
  have hmarks : ∀ row : Row, ∀ c ∈ row.marks.toList, (c != 'q') = true := by
    intro row c hc
    rcases mem_marks hc with rfl | rfl <;> rfl
  rw [head, head, toList_stateName, toList_stateName] at h
  obtain ⟨hmarks, hnames⟩ :=
    append_inj_of_forall (hmarks row) (hmarks row') (by simp) (by simp) h
  obtain ⟨hfinal, hstart⟩ := marks_inj (String.toList_inj.1 hmarks)
  rw [← toList_stateName, ← toList_stateName] at hnames
  exact ⟨hfinal, hstart, stateName_inj.1 (String.toList_inj.1 hnames)⟩

end Row

/-- Lines with equally many cells are known together with their ends. -/
theorem delimited_row (k : Nat) :
    Delimited (fun row : Row => row.cells.length = k) Row.line fun _ => True := by
  have hhead : ∀ row : Row, ∀ c ∈ row.head, (c != '\t') = true := fun row c hc =>
    bne_iff_ne.2 (ne_of_mem_of_not_mem hc Row.tab_not_mem_head)
  rintro row row' s t hk hk' - - h
  rw [Row.line_append, Row.line_append] at h
  obtain ⟨hnames, hrest⟩ := append_inj_of_forall (hhead row) (hhead row') (by simp) (by simp) h
  obtain ⟨hfinal, hstart, hstate⟩ := Row.head_inj hnames
  obtain ⟨hcells, hst⟩ := delimited_cells k row.cells row'.cells s t hk hk' trivial trivial
    (List.cons.inj hrest).2
  refine ⟨?_, hst⟩
  cases row
  cases row'
  simp_all

/-- The line of a state does not begin as what follows a symbol in the first line. -/
theorem not_endsCell_line (row : Row) (s : List Char) : ¬ EndsCell (row.line ++ s) := by
  have hhead : ∃ c cs, row.head = c :: cs ∧ isSeparator c = false := by
    unfold Row.head
    cases hmarks : row.marks.toList with
    | nil => exact ⟨'q', _, toList_stateName _, rfl⟩
    | cons c cs =>
      refine ⟨c, cs ++ (stateName row.state).toList, rfl, ?_⟩
      have hc : c ∈ row.marks.toList := hmarks ▸ List.mem_cons_self
      rcases Row.mem_marks hc with rfl | rfl <;> rfl
  rintro ⟨c, s', hline, hc⟩
  obtain ⟨c', cs, hcs, hc'⟩ := hhead
  rw [Row.line_append, hcs] at hline
  rw [(List.cons.inj hline).1, hc] at hc'
  cases hc'

/-! ## The whole table -/

/-- No symbols do not look like some, as long as no separator follows. -/
theorem lineFeed_append_ne {b : Symbol} {bs : List Symbol} {s t : List Char} (hb : b.length = 1)
    (hs : ¬ EndsCell s) : "\n".toList ++ s ≠
      "\t".toList.intercalate ((b :: bs).map String.toList) ++ ("\n".toList ++ t) := by
  intro h
  rw [List.map_cons, intercalate_cons_eq_flatMap, List.flatMap_map, List.append_assoc] at h
  obtain ⟨-, hrest⟩ := delimited_symbol "\n" b s _ rfl hb trivial trivial h
  exact hs (hrest ▸ follows_separated endsCell_tab endsCell_lineFeed bs t)

/-- Symbols of one character are known together with the end of the first line. -/
theorem symbols_inj {as bs : List Symbol} {s t : List Char} (has : ∀ a ∈ as, a.length = 1)
    (hbs : ∀ b ∈ bs, b.length = 1) (hs : ¬ EndsCell s) (ht : ¬ EndsCell t)
    (h : "\t".toList.intercalate (as.map String.toList) ++ ("\n".toList ++ s) =
      "\t".toList.intercalate (bs.map String.toList) ++ ("\n".toList ++ t)) :
    as = bs ∧ s = t := by
  cases as with
  | nil =>
    cases bs with
    | nil => exact ⟨rfl, List.append_cancel_left h⟩
    | cons b bs => exact absurd h (lineFeed_append_ne (hbs b List.mem_cons_self) hs)
  | cons a as =>
    cases bs with
    | nil => exact absurd h.symm (lineFeed_append_ne (has a List.mem_cons_self) ht)
    | cons b bs =>
      rw [← List.append_assoc, ← List.append_assoc] at h
      exact delimited_symbol.joined (fun _ => trivial) (fun _ => trivial) tab_append_ne
        (a :: as) (b :: bs) s t ⟨List.cons_ne_nil _ _, has⟩ ⟨List.cons_ne_nil _ _, hbs⟩
        trivial trivial h

theorem not_endsCell_rows (h : d.IsValid) : ¬ EndsCell (d.rows.flatMap Row.line) := by
  unfold rows
  cases hstates : d.states with
  | nil => exact absurd (hstates ▸ h.start_mem) List.not_mem_nil
  | cons q qs => exact not_endsCell_line (d.row q) _

/-- A table shows the symbols and what there is to show of each state. -/
theorem alphabet_eq_and_rows_eq (hd : d.IsValid) (he : e.IsValid)
    (hds : ∀ a ∈ d.alphabet, a.length = 1) (hes : ∀ a ∈ e.alphabet, a.length = 1)
    (h : d.toTable = e.toTable) : d.alphabet = e.alphabet ∧ d.rows = e.rows := by
  have htext := congrArg String.toList h
  rw [toList_toTable, toList_toTable] at htext
  obtain ⟨halphabet, hlines⟩ := symbols_inj hds hes (not_endsCell_rows hd) (not_endsCell_rows he)
    (List.cons.inj htext).2
  have hcells : ∀ c : DFA, ∀ row ∈ c.rows, row.cells.length = c.alphabet.length := by
    intro c row hrow
    obtain ⟨q, -, rfl⟩ := List.mem_map.1 hrow
    exact List.length_map _
  have hline : ∀ row : Row, row.line ≠ [] := fun row => by simp [Row.line]
  exact ⟨halphabet, (delimited_row d.alphabet.length).flatMap_inj hline (hcells d)
    (halphabet ▸ hcells e) hlines⟩

/-- An edge leads where the table says. -/
theorem mem_edges_iff (h : d.IsValid) {a : Symbol} :
    ⟨q, a, r⟩ ∈ d.edges ↔ q ∈ d.states ∧ a ∈ d.alphabet ∧ d.delta q a = some r := by
  rw [← h.delta_eq_some_iff]
  exact ⟨fun hr => ⟨(h.mem_of_delta hr).1, (h.mem_of_delta hr).2.1, hr⟩, fun hr => hr.2.2⟩

/-- Automata of the same symbols are the same if their lines show the same. -/
theorem toAutomaton_eq_of_rows_eq (hd : d.IsValid) (he : e.IsValid)
    (halphabet : d.alphabet = e.alphabet) (hrows : d.rows = e.rows) :
    d.toAutomaton = e.toAutomaton := by
  have hstates : d.states = e.states := by
    have hshown := congrArg (List.map Row.state) hrows
    simpa [rows, row, Function.comp_def] using hshown
  have hrow : ∀ q ∈ d.states, d.row q = e.row q := by
    rw [rows, rows, ← hstates] at hrows
    exact List.map_inj_left.1 hrows
  have hdelta : ∀ q ∈ d.states, ∀ a ∈ d.alphabet, d.delta q a = e.delta q a := by
    intro q hq
    have hcells := congrArg Row.cells (hrow q hq)
    simp only [row, ← halphabet] at hcells
    exact List.map_inj_left.1 hcells
  have hfinal : ∀ q ∈ d.states, q ∈ d.final ↔ q ∈ e.final := by
    intro q hq
    have hmark := congrArg Row.isFinal (hrow q hq)
    simpa [row] using hmark
  have hstart : d.start = e.start := by
    have hmark := congrArg Row.isStart (hrow d.start hd.start_mem)
    simpa [row] using hmark
  refine hd.toIsProper.ext he.toIsProper (fun q => by rw [hstates]) hstart (fun q => ?_)
    (fun q a r => ?_) fun a => by rw [halphabet]
  · exact ⟨fun hq => (hfinal q (hd.final_mem q hq)).1 hq,
      fun hq => (hfinal q (hstates ▸ he.final_mem q hq)).2 hq⟩
  · rw [mem_edges_iff hd, mem_edges_iff he, ← hstates, ← halphabet]
    exact and_congr_right fun hq => and_congr_right fun ha => by rw [hdelta q hq a ha]

/-- Automata have the same table exactly when they have the same states, start, final states, edges
and alphabet. -/
theorem toTable_eq_iff (d e : DFA) (hd : d.IsValid) (he : e.IsValid)
    (hds : ∀ a ∈ d.alphabet, a.length = 1) (hes : ∀ a ∈ e.alphabet, a.length = 1) :
    d.toTable = e.toTable ↔ d.toAutomaton = e.toAutomaton := by
  constructor
  · intro h
    obtain ⟨halphabet, hrows⟩ := alphabet_eq_and_rows_eq hd he hds hes h
    exact toAutomaton_eq_of_rows_eq hd he halphabet hrows
  · intro h
    have hparts : ∀ c : DFA, c.toTable = ({ toAutomaton := c.toAutomaton } : DFA).toTable :=
      fun c => rfl
    rw [hparts d, hparts e, h]

/-- A final start without moves. -/
def bare : DFA := ofParts [0] 0 [0] [] [] []

/-- Symbols that look like the end of a line and the gap between two cells. -/
def gapped : DFA := ofParts [-1, 0] 0 [0] [⟨0, "\n", -1⟩] ["\t"] []

theorem toTable_eq_iff_bare_gapped : bare.IsValid ∧ gapped.IsValid ∧
    (∀ a ∈ bare.alphabet, a.length = 1) ∧ (∀ a ∈ gapped.alphabet, a.length = 1) ∧
    bare.toTable ≠ gapped.toTable := by
  have hbare : bare.IsValid := ofParts_isValid (by decide) (by decide) (by decide) (by decide)
  have hgapped : gapped.IsValid := ofParts_isValid (by decide) (by decide) (by decide) (by decide)
  have hds : ∀ a ∈ bare.alphabet, a.length = 1 := by decide
  have hes : ∀ a ∈ gapped.alphabet, a.length = 1 := by decide
  have hparts : bare.toAutomaton ≠ gapped.toAutomaton := by decide
  exact ⟨hbare, hgapped, hds, hes,
    mt (toTable_eq_iff bare gapped hbare hgapped hds hes).1 hparts⟩

end RegularLanguage.DFA
