import Mathlib.Data.List.Induction
import RegularLanguage.Proofs.Pattern.Scan
/-!
# Faults are found where a text can no longer become a pattern

Reading never looks ahead: the text up to a place leads to the same open groups whatever follows
(`IsReadTo`). Any open groups can still be completed, since a marker makes a last factor for the
innermost one and closing parentheses end the others (`IsReadTo.isBeginning`). So where reading
stops, the text before is the beginning of a pattern, and the place that is reported tells what is
wrong (`parse_error_explains`).
-/

namespace RegularLanguage

namespace Dialect

variable {d : Dialect} {cs ts text : List Char} {c : Char} {k position : Nat} {g g' : OpenGroup}
  {outer outer' : List (Nat × OpenGroup)} {r : Regex} {e : PatternError}

/-! ## What a fault says of the text -/

def IsPattern (d : Dialect) (cs : List Char) : Prop := ∃ r, d.parse (String.ofList cs) = .ok r

def IsBeginning (d : Dialect) (cs : List Char) : Prop := ∃ rest, d.IsPattern (cs ++ rest)

/-- What is pending after a text: how many characters it has, whether the last one is an escape
whose symbol is still to come, and where the parentheses stand that are open, the innermost one
first. -/
structure Nesting where
  place : Nat := 0
  escaping : Bool := false
  opened : List Nat := []

/-- A further character. Parentheses that are escaped do not count. -/
def Nesting.next (d : Dialect) (n : Nesting) (c : Char) : Nesting where
  place := n.place + 1
  escaping := !n.escaping && c == d.escape
  opened :=
    if n.escaping then n.opened
    else if c = '(' then n.place :: n.opened
    else if c = ')' then n.opened.tail
    else n.opened

def nesting (d : Dialect) (cs : List Char) : Nesting := cs.foldl (Nesting.next d) {}

/-- The character at the place is the first one that no pattern has after what comes before. -/
def IsFirstWrong (d : Dialect) (cs : List Char) (k : Nat) (c : Char) : Prop :=
  cs[k]? = some c ∧ d.IsBeginning (cs.take k) ∧ ¬ d.IsBeginning (cs.take (k + 1))

/-- What is true of a text in which the fault is found. -/
def Explains (d : Dialect) (cs : List Char) : PatternError → Prop
  | .missingStarOperand k => d.IsFirstWrong cs k '*'
  | .missingLeftOperand k => d.IsFirstWrong cs k '|'
  | .unmatchedClosing k => d.IsFirstWrong cs k ')'
  | .notInAlphabet a k => ∃ c, a = String.singleton c ∧ cs[k]? = some c ∧ d.allows a = false ∧
      ¬ d.IsBeginning (cs.take (k + 1)) ∧
      d.IsBeginning (cs.take (if (d.nesting (cs.take k)).escaping then k - 1 else k))
  | .missingRightOperand k => cs[k]? = some '|' ∧
      (k + 1 = cs.length ∨ cs[k + 1]? = some '|' ∨ cs[k + 1]? = some ')') ∧
      d.IsBeginning (cs.take (k + 1))
  | .danglingEscape k => k + 1 = cs.length ∧ cs[k]? = some d.escape ∧ d.IsBeginning (cs.take k)
  | .unmatchedOpening k => cs[k]? = some '(' ∧ ∃ around, (d.nesting cs).opened = k :: around ∧
      d.IsPattern (cs ++ List.replicate (around.length + 1) ')')

theorem isPattern_iff_scan : d.IsPattern cs ↔ ∃ r, d.scan 0 {} [] cs = .ok r := by
  simp [IsPattern, parse]

/-! ## Pending escapes and parentheses -/

theorem nesting_append : d.nesting (cs ++ ts) = ts.foldl (Nesting.next d) (d.nesting cs) :=
  List.foldl_append

@[simp]
theorem nesting_place : (d.nesting cs).place = cs.length := by
  induction cs using List.reverseRecOn with
  | nil => rfl
  | append_singleton cs c ih => simp [nesting_append, Nesting.next, ih]

/-- What is open begins with an opening parenthesis. -/
theorem getElem?_of_mem_opened (h : k ∈ (d.nesting cs).opened) : cs[k]? = some '(' := by
  induction cs using List.reverseRecOn generalizing k with
  | nil => cases h
  | append_singleton cs c ih =>
    have hkeep : k ∈ (d.nesting cs).opened → (cs ++ [c])[k]? = some '(' := by
      intro hk
      obtain ⟨hlt, -⟩ := List.getElem?_eq_some_iff.1 (ih hk)
      rw [List.getElem?_append_left hlt, ih hk]
    simp only [nesting_append, List.foldl_cons, List.foldl_nil, Nesting.next] at h
    split at h
    · exact hkeep h
    · split at h
      · rename_i hc
        rcases List.mem_cons.1 h with rfl | h
        · simp [hc]
        · exact hkeep h
      · split at h
        · exact hkeep (List.mem_of_mem_tail h)
        · exact hkeep h

theorem ne_escape_of_mem_operators (h : c ∈ operators) : c ≠ d.escape := by
  rintro rfl
  exact d.markers_not_operators.1 h

/-- A character that is neither a parenthesis nor the escape leaves nothing pending. -/
theorem next_of_ne {opened : List Nat} (hescape : c ≠ d.escape) (hopening : c ≠ '(')
    (hclosing : c ≠ ')') :
    Nesting.next d ⟨position, false, opened⟩ c = ⟨position + 1, false, opened⟩ := by
  simp [Nesting.next, hescape, hopening, hclosing]

/-! ## Open groups can be completed -/

/-- Closing parentheses end all groups if the innermost one can be closed: the others then end with
what has been closed. -/
theorem exists_scan_closings (h : g.close = .ok r) :
    ∃ s, d.scan position g outer (List.replicate outer.length ')') = .ok s := by
  induction outer generalizing position g r with
  | nil => exact ⟨r, by simp [scan, h]⟩
  | cons x outer ih =>
    obtain ⟨opening, around⟩ := x
    obtain ⟨s, hs⟩ := around.exists_close_push r
    obtain ⟨t, ht⟩ : ∃ t, d.scan (position + 1) (around.push r) outer
        (List.replicate outer.length ')') = .ok t := ih hs
    refine ⟨t, ?_⟩
    rw [List.length_cons, List.replicate_succ, d.scan_closing opening around h, ht]

/-- The text leads to the groups, whatever comes after it. If nothing has been read of the last
alternative, the text ends with the last bar. -/
structure IsReadTo (d : Dialect) (cs : List Char) (g : OpenGroup) (outer : List (Nat × OpenGroup)) :
    Prop where
  scan_eq : ∀ rest, d.scan 0 {} [] (cs ++ rest) = d.scan cs.length g outer rest
  nesting_eq : d.nesting cs = ⟨cs.length, false, outer.map Prod.fst⟩
  bar_last : g.factors = none → ∀ last, g.lastBar = some last →
    cs[last]? = some '|' ∧ last + 1 = cs.length

namespace IsReadTo

theorem isBeginning (h : d.IsReadTo cs g outer) : d.IsBeginning cs := by
  obtain ⟨s, hs⟩ := g.exists_close_push .epsilon
  obtain ⟨r, hr⟩ : ∃ r, d.scan (cs.length + 1) (g.push .epsilon) outer
      (List.replicate outer.length ')') = .ok r := exists_scan_closings hs
  refine ⟨d.epsilon :: List.replicate outer.length ')', isPattern_iff_scan.2 ⟨r, ?_⟩⟩
  rw [h.scan_eq, scan_epsilon, hr]

/-- What cannot be read stays wrong whatever comes after it. -/
theorem not_isBeginning (h : d.IsReadTo cs g outer)
    (hfail : ∀ rest, ∃ e, d.scan cs.length g outer (ts ++ rest) = .error e) :
    ¬ d.IsBeginning (cs ++ ts) := by
  rintro ⟨rest, hpattern⟩
  obtain ⟨r, hr⟩ := isPattern_iff_scan.1 hpattern
  obtain ⟨e, he⟩ := hfail rest
  rw [List.append_assoc, h.scan_eq, he] at hr
  cases hr

theorem isFirstWrong (h : d.IsReadTo cs g outer)
    (hfail : ∀ rest, ∃ e, d.scan cs.length g outer (c :: rest) = .error e) :
    d.IsFirstWrong (cs ++ c :: text) cs.length c := by
  refine ⟨by simp, ?_, ?_⟩
  · rw [List.take_left]
    exact h.isBeginning
  · rw [List.append_cons, List.take_left' (by simp)]
    exact h.not_isBeginning hfail

/-! ## Reading on -/

theorem nil : d.IsReadTo [] {} [] where
  scan_eq _ := rfl
  nesting_eq := rfl
  bar_last := by simp [OpenGroup.lastBar]

theorem append (h : d.IsReadTo cs g outer)
    (hscan : ∀ rest, d.scan cs.length g outer (ts ++ rest) =
      d.scan (cs.length + ts.length) g' outer' rest)
    (hnesting : ts.foldl (Nesting.next d) ⟨cs.length, false, outer.map Prod.fst⟩ =
      ⟨cs.length + ts.length, false, outer'.map Prod.fst⟩)
    (hbar : g'.factors = none → ∀ last, g'.lastBar = some last →
      ts = ['|'] ∧ last = cs.length) : d.IsReadTo (cs ++ ts) g' outer' where
  scan_eq rest := by rw [List.append_assoc, h.scan_eq, hscan, List.length_append]
  nesting_eq := by rw [nesting_append, h.nesting_eq, hnesting, List.length_append]
  bar_last hfactors last hlast := by
    obtain ⟨rfl, rfl⟩ := hbar hfactors last hlast
    simp

/-- A factor is read. -/
theorem push (h : d.IsReadTo cs g outer)
    (hscan : ∀ rest, d.scan cs.length g outer (ts ++ rest) =
      d.scan (cs.length + ts.length) (g.push r) outer rest)
    (hnesting : ts.foldl (Nesting.next d) ⟨cs.length, false, outer.map Prod.fst⟩ =
      ⟨cs.length + ts.length, false, outer.map Prod.fst⟩) :
    d.IsReadTo (cs ++ ts) (g.push r) outer :=
  h.append hscan hnesting fun hfactors => by cases hfactors

theorem opening (h : d.IsReadTo cs g outer) :
    d.IsReadTo (cs ++ ['(']) {} ((cs.length, g) :: outer) := by
  refine h.append (fun rest => d.scan_opening) ?_ (by simp [OpenGroup.lastBar])
  have hescape : '(' ≠ d.escape := ne_escape_of_mem_operators (by decide)
  simp [Nesting.next, hescape]

theorem closing {around : OpenGroup} (h : d.IsReadTo cs g ((k, around) :: outer))
    (hr : g.close = .ok r) : d.IsReadTo (cs ++ [')']) (around.push r) outer := by
  refine h.append (fun rest => d.scan_closing k around hr) ?_ fun hfactors => by cases hfactors
  have hescape : ')' ≠ d.escape := ne_escape_of_mem_operators (by decide)
  simp [Nesting.next, hescape]

theorem bar (h : d.IsReadTo cs g outer) (hg : g.bar cs.length = .ok g') :
    d.IsReadTo (cs ++ ['|']) g' outer := by
  obtain ⟨-, r, -, rfl⟩ := OpenGroup.bar_eq_ok_iff.1 hg
  refine h.append (fun rest => ?_) ?_ fun _ last hlast => ?_
  · rw [List.singleton_append, scan_bar, hg]
    rfl
  · exact next_of_ne (ne_escape_of_mem_operators (by decide)) (by decide) (by decide)
  · obtain rfl : cs.length = last := by simpa [OpenGroup.lastBar] using hlast
    exact ⟨rfl, rfl⟩

theorem star (h : d.IsReadTo cs g outer) (hg : g.star cs.length = .ok g') :
    d.IsReadTo (cs ++ ['*']) g' outer := by
  refine h.append (fun rest => ?_) ?_ fun hfactors => ?_
  · rw [List.singleton_append, scan_star, hg]
    rfl
  · exact next_of_ne (ne_escape_of_mem_operators (by decide)) (by decide) (by decide)
  · unfold OpenGroup.star at hg
    split at hg <;> cases hg
    cases hfactors

/-- A symbol or a marker is read that no escape stands before. -/
theorem single (h : d.IsReadTo cs g outer) (hc : c ∉ operators) (hescape : c ≠ d.escape)
    (hscan : ∀ rest, d.scan cs.length g outer (c :: rest) =
      d.scan (cs.length + 1) (g.push r) outer rest) : d.IsReadTo (cs ++ [c]) (g.push r) outer := by
  refine h.push hscan (next_of_ne hescape ?_ ?_)
  · rintro rfl
    exact hc (by decide)
  · rintro rfl
    exact hc (by decide)

theorem escaped (h : d.IsReadTo cs g outer) (hc : d.allows (String.singleton c) = true) :
    d.IsReadTo (cs ++ [d.escape, c]) (g.push (.literal (String.singleton c))) outer := by
  refine h.push (fun rest => ?_) ?_
  · rw [List.cons_append, List.singleton_append, scan_escape, literal_of_allows hc]
    rfl
  · have hescape : d.escape ≠ '(' ∧ d.escape ≠ ')' :=
      ⟨(ne_escape_of_mem_operators (by decide)).symm, (ne_escape_of_mem_operators (by decide)).symm⟩
    simp [Nesting.next, hescape]

/-! ## Reading stops -/

/-- A bar without anything after it is found at the next bar, at the end of its group or at the end
of the text. -/
theorem explains_missingRightOperand (h : d.IsReadTo cs g outer) (hclose : g.close = .error e)
    (htext : text = [] ∨ text[0]? = some '|' ∨ text[0]? = some ')') :
    d.Explains (cs ++ text) e := by
  obtain ⟨hfactors, last, hlast, rfl⟩ := OpenGroup.close_eq_error_iff.1 hclose
  obtain ⟨hbar, hlength⟩ := h.bar_last hfactors last hlast
  refine ⟨?_, ?_, ?_⟩
  · rw [List.getElem?_append_left (by omega), hbar]
  · rw [hlength, List.getElem?_append_right (Nat.le_refl _), Nat.sub_self, List.length_append]
    rcases htext with rfl | htext
    · exact .inl rfl
    · exact .inr htext
  · rw [List.take_left' hlength.symm]
    exact h.isBeginning

/-- At the end a group is open; it is reported where it begins, and closing parentheses complete the
pattern. -/
theorem explains_unmatchedOpening {around : OpenGroup} (h : d.IsReadTo cs g ((k, around) :: outer))
    (hr : g.close = .ok r) : d.Explains cs (.unmatchedOpening k) := by
  have hopened : (d.nesting cs).opened = k :: outer.map Prod.fst := by rw [h.nesting_eq]; rfl
  refine ⟨getElem?_of_mem_opened (hopened ▸ List.mem_cons_self), _, hopened, ?_⟩
  rw [isPattern_iff_scan, h.scan_eq, List.length_map]
  exact exists_scan_closings hr

/-- A symbol that is not allowed, read by itself. -/
theorem explains_notInAlphabet (h : d.IsReadTo cs g outer)
    (hc : d.allows (String.singleton c) = false)
    (hscan : ∀ rest, d.scan cs.length g outer (c :: rest) = (d.literal c cs.length).bind fun r =>
      d.scan (cs.length + 1) (g.push r) outer rest) :
    d.Explains (cs ++ c :: text) (.notInAlphabet (String.singleton c) cs.length) := by
  have hfail : ∀ rest, ∃ e, d.scan cs.length g outer (c :: rest) = .error e := by
    intro rest
    rw [hscan, literal_of_not_allows hc]
    exact ⟨_, rfl⟩
  obtain ⟨hat, hbefore, hwrong⟩ : d.IsFirstWrong (cs ++ c :: text) cs.length c :=
    h.isFirstWrong hfail
  refine ⟨c, rfl, hat, hc, hwrong, ?_⟩
  have hescaping : (d.nesting cs).escaping = false := by rw [h.nesting_eq]
  rw [List.take_left] at hbefore ⊢
  simpa [hescaping] using hbefore

/-- A symbol that is not allowed, read after an escape. -/
theorem explains_notInAlphabet_escaped (h : d.IsReadTo cs g outer)
    (hc : d.allows (String.singleton c) = false) :
    d.Explains (cs ++ d.escape :: c :: text)
      (.notInAlphabet (String.singleton c) (cs.length + 1)) := by
  have hwrong : ¬ d.IsBeginning (cs ++ [d.escape, c]) := by
    refine h.not_isBeginning fun rest => ?_
    rw [List.cons_append, List.singleton_append, scan_escape, literal_of_not_allows hc]
    exact ⟨_, rfl⟩
  have hbefore : (cs ++ d.escape :: c :: text).take (cs.length + 1) = cs ++ [d.escape] := by
    rw [List.append_cons, List.take_left' (by simp)]
  have hescaping : (d.nesting (cs ++ [d.escape])).escaping = true := by
    rw [nesting_append, h.nesting_eq]
    simp [Nesting.next]
  refine ⟨c, rfl, by simp, hc, ?_, ?_⟩
  · rwa [List.append_cons, List.append_cons, List.take_left' (by simp), List.append_assoc]
  · rw [hbefore, if_pos hescaping, Nat.add_sub_cancel, List.take_left]
    exact h.isBeginning

end IsReadTo

/-! ## The whole scan -/

theorem explains_of_scan (h : d.scan position g outer text = .error e)
    (hread : d.IsReadTo cs g outer) (hposition : position = cs.length) :
    d.Explains (cs ++ text) e := by
  fun_induction scan d position g outer text generalizing cs with
  | case1 position g outer =>
    rcases bind_eq_error_iff.1 h with hclose | ⟨t, ht, h⟩
    · exact hread.explains_missingRightOperand hclose (.inl rfl)
    · rw [List.append_nil]
      cases outer with
      | nil => cases h
      | cons x outer =>
        cases h
        exact hread.explains_unmatchedOpening ht
  | case2 position g outer text ih =>
    subst hposition
    rw [List.append_cons]
    exact ih h hread.opening (by simp)
  | case3 position g outer text _ ih =>
    subst hposition
    rcases bind_eq_error_iff.1 h with hclose | ⟨t, ht, h⟩
    · exact hread.explains_missingRightOperand hclose (.inr (.inr rfl))
    · cases outer with
      | nil =>
        cases h
        exact hread.isFirstWrong fun rest => ⟨_, d.scan_unmatchedClosing ht⟩
      | cons x outer =>
        rw [List.append_cons]
        exact ih t _ _ h (hread.closing ht) (by simp)
  | case4 position g outer text _ _ ih =>
    subst hposition
    rcases bind_eq_error_iff.1 h with hg | ⟨g', hg, h⟩
    · obtain ⟨hfactors, ⟨-, rfl⟩ | hlast⟩ := OpenGroup.bar_eq_error_iff.1 hg
      · exact hread.isFirstWrong fun rest => ⟨_, d.scan_bar.trans (bind_eq_error_iff.2 (.inl hg))⟩
      · -- the bar before this one is reported, as it would be if the group ended here
        exact hread.explains_missingRightOperand
          (OpenGroup.close_eq_error_iff.2 ⟨hfactors, hlast⟩) (.inr (.inl rfl))
    · rw [List.append_cons]
      exact ih g' h (hread.bar hg) (by simp)
  | case5 position g outer text _ _ _ ih =>
    subst hposition
    rcases bind_eq_error_iff.1 h with hg | ⟨g', hg, h⟩
    · obtain ⟨-, rfl⟩ := OpenGroup.star_eq_error_iff.1 hg
      exact hread.isFirstWrong fun rest => ⟨_, d.scan_star.trans (bind_eq_error_iff.2 (.inl hg))⟩
    · rw [List.append_cons]
      exact ih g' h (hread.star hg) (by simp)
  | case6 =>
    subst hposition
    cases h
    refine ⟨by simp, by simp, ?_⟩
    rw [List.take_left]
    exact hread.isBeginning
  | case7 position g outer c text _ _ _ _ ih =>
    subst hposition
    rcases bind_eq_error_iff.1 h with ht | ⟨t, ht, h⟩
    · obtain ⟨hc, rfl⟩ := literal_eq_error_iff.1 ht
      exact hread.explains_notInAlphabet_escaped hc
    · obtain ⟨hc, rfl⟩ := literal_eq_ok_iff.1 ht
      rw [List.append_cons, List.append_cons, List.append_assoc cs]
      exact ih _ h (hread.escaped hc) (by simp)
  | case8 position g outer text _ _ _ _ _ ih =>
    subst hposition
    rw [List.append_cons]
    exact ih h (hread.single d.markers_not_operators.2.1 d.markers_differ.1.symm
      fun rest => d.scan_epsilon) (by simp)
  | case9 position g outer text _ _ _ _ _ _ ih =>
    subst hposition
    rw [List.append_cons]
    exact ih h (hread.single d.markers_not_operators.2.2 d.markers_differ.2.1.symm
      fun rest => d.scan_empty) (by simp)
  | case10 position g outer c text hopening hclosing hbar hstar hescape hepsilon hempty ih =>
    subst hposition
    have hoperator : c ∉ operators := by simp [operators, hopening, hclosing, hbar, hstar]
    have hplain : d.IsPlain c := by
      simp [IsPlain, operators, hopening, hclosing, hbar, hstar, hescape, hepsilon, hempty]
    rcases bind_eq_error_iff.1 h with ht | ⟨t, ht, h⟩
    · obtain ⟨hc, rfl⟩ := literal_eq_error_iff.1 ht
      exact hread.explains_notInAlphabet hc fun rest => d.scan_plain hplain
    · obtain ⟨hc, rfl⟩ := literal_eq_ok_iff.1 ht
      rw [List.append_cons]
      refine ih _ h (hread.single hoperator hescape fun rest => ?_) (by simp)
      rw [d.scan_plain hplain, literal_of_allows hc]
      rfl

theorem Explains.position_lt (h : d.Explains cs e) : e.position < cs.length := by
  have hlt : ∀ {k c}, cs[k]? = some c → k < cs.length :=
    fun hk => (List.getElem?_eq_some_iff.1 hk).1
  cases e with
  | missingStarOperand | missingLeftOperand | unmatchedClosing | missingRightOperand
  | unmatchedOpening => exact hlt h.1
  | danglingEscape => exact hlt h.2.1
  | notInAlphabet =>
    obtain ⟨c, -, hk, -⟩ := h
    exact hlt hk

/-- Where reading fails, the place that is reported is a place of the text and explains the fault:
up to there the text is the beginning of a pattern, and the character there makes it none, lacks
what has to follow it, or opens the group that is never closed. -/
theorem parse_error_explains (d : Dialect) (pattern : String) (e : PatternError)
    (h : d.parse pattern = .error e) :
    e.position < pattern.length ∧ d.Explains pattern.toList e := by
  have hexplains : d.Explains pattern.toList e := explains_of_scan h .nil rfl
  exact ⟨String.length_toList (s := pattern) ▸ hexplains.position_lt, hexplains⟩

/-- Of three parentheses that are not escaped the last one is never closed, nor is the first. -/
theorem parse_error_explains_unclosed :
    let d := ({} : Dialect).withAlphabet (some ["(", "a", "b", "c"])
    let pattern := "a(b|(\\()*(c"
    d.parse pattern = .error (.unmatchedOpening 9) ∧ 9 < pattern.length ∧
      d.Explains pattern.toList (.unmatchedOpening 9) := by
  intro d pattern
  have h : d.parse pattern = .error (.unmatchedOpening 9) := by decide +kernel
  exact ⟨h, parse_error_explains d pattern _ h⟩

example : (({} : Dialect).nesting "(\\((a)\\".toList).opened = [0] := by decide

end Dialect

end RegularLanguage
