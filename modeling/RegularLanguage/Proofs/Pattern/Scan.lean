import RegularLanguage.Pattern.Parser
import RegularLanguage.Proofs.Dialect.Basic
/-!
# What the scan does with each character

The operators and the markers of a dialect are seven different characters, so a character is read
in exactly one way: one equation of the scan for each.
-/

namespace RegularLanguage

namespace OpenGroup

variable {g g' : OpenGroup} {position : Nat} {t : Regex} {e : PatternError}

def lastBar (g : OpenGroup) : Option Nat := g.alternatives.map Prod.snd

theorem term_eq_none_iff : g.term = none ↔ g.factors = none := Option.map_eq_none_iff

/-- A star fails only where there is no factor. -/
theorem star_eq_error_iff :
    g.star position = .error e ↔ g.factors = none ∧ .missingStarOperand position = e := by
  unfold star
  cases g.factors <;> simp

/-- A group that cannot be closed has nothing after its last bar. -/
theorem close_eq_error_iff : g.close = .error e ↔
    g.factors = none ∧ ∃ last, g.lastBar = some last ∧ .missingRightOperand last = e := by
  rw [← term_eq_none_iff]
  unfold close lastBar
  cases g.term <;> rcases g.alternatives with _ | ⟨u, last⟩ <;> simp

/-- A bar fails where a factor is missing: the first one of the group, or one after the last bar. -/
theorem bar_eq_error_iff : g.bar position = .error e ↔ g.factors = none ∧
    (g.lastBar = none ∧ .missingLeftOperand position = e ∨
      ∃ last, g.lastBar = some last ∧ .missingRightOperand last = e) := by
  rw [← term_eq_none_iff]
  unfold bar lastBar
  cases g.term <;> rcases g.alternatives with _ | ⟨u, last⟩ <;> simp

/-- A group that ends with a factor can be closed. -/
theorem exists_close_push (g : OpenGroup) (t : Regex) : ∃ r, (g.push t).close = .ok r := by
  cases h : (g.push t).close with
  | ok r => exact ⟨r, rfl⟩
  | error e => cases (close_eq_error_iff.1 h).1

/-- A bar ends a group that could be closed, but for the empty one. -/
theorem bar_eq_ok_iff : g.bar position = .ok g' ↔
    g.term.isSome ∧ ∃ r, g.close = .ok r ∧ g' = { alternatives := some (r, position) } := by
  unfold bar close
  cases g.term <;> rcases g.alternatives with _ | ⟨u, last⟩ <;> simp [eq_comm]

end OpenGroup

namespace Dialect

variable (d : Dialect) {position : Nat} {g : OpenGroup} {outer : List (Nat × OpenGroup)} {c : Char}
  {cs : List Char} {r : Regex}

def IsPlain (c : Char) : Prop := c ∉ operators ++ [d.escape, d.epsilon, d.empty]

theorem scan_opening : d.scan position g outer ('(' :: cs) =
    d.scan (position + 1) {} ((position, g) :: outer) cs := by
  rw [scan.eq_def]
  rfl

theorem scan_closing_eq : d.scan position g outer (')' :: cs) = g.close.bind fun r =>
    match outer with
    | [] => .error (.unmatchedClosing position)
    | (_, around) :: outer => d.scan (position + 1) (around.push r) outer cs := by
  rw [scan.eq_def]
  rfl

theorem scan_closing (opening : Nat) (around : OpenGroup) (h : g.close = .ok r) :
    d.scan position g ((opening, around) :: outer) (')' :: cs) =
      d.scan (position + 1) (around.push r) outer cs := by
  rw [scan_closing_eq, h]
  rfl

theorem scan_unmatchedClosing (h : g.close = .ok r) :
    d.scan position g [] (')' :: cs) = .error (.unmatchedClosing position) := by
  rw [scan_closing_eq, h]
  rfl

theorem scan_bar : d.scan position g outer ('|' :: cs) =
    (g.bar position).bind fun g' => d.scan (position + 1) g' outer cs := by
  rw [scan.eq_def]
  rfl

theorem scan_star : d.scan position g outer ('*' :: cs) =
    (g.star position).bind fun g' => d.scan (position + 1) g' outer cs := by
  rw [scan.eq_def]
  rfl

/-- What the scan does with a character that is no operator. -/
theorem scan_of_not_operator (h : c ∉ operators) : d.scan position g outer (c :: cs) =
    if c = d.escape then
      match cs with
      | [] => .error (.danglingEscape position)
      | e :: cs => (d.literal e (position + 1)).bind fun r =>
        d.scan (position + 2) (g.push r) outer cs
    else if c = d.epsilon then d.scan (position + 1) (g.push .epsilon) outer cs
    else if c = d.empty then d.scan (position + 1) (g.push .empty) outer cs
    else (d.literal c position).bind fun r => d.scan (position + 1) (g.push r) outer cs := by
  simp only [operators, List.mem_cons, List.not_mem_nil, not_or] at h
  obtain ⟨hbar, hstar, hopening, hclosing, -⟩ := h
  rw [scan.eq_def]
  dsimp only
  rw [if_neg hopening, if_neg hclosing, if_neg hbar, if_neg hstar]
  rfl

theorem scan_escape : d.scan position g outer (d.escape :: c :: cs) =
    (d.literal c (position + 1)).bind fun r => d.scan (position + 2) (g.push r) outer cs := by
  rw [scan_of_not_operator d d.markers_not_operators.1, if_pos rfl]

theorem scan_danglingEscape :
    d.scan position g outer [d.escape] = .error (.danglingEscape position) := by
  rw [scan_of_not_operator d d.markers_not_operators.1, if_pos rfl]

theorem scan_epsilon : d.scan position g outer (d.epsilon :: cs) =
    d.scan (position + 1) (g.push .epsilon) outer cs := by
  rw [scan_of_not_operator d d.markers_not_operators.2.1, if_neg d.markers_differ.1.symm,
    if_pos rfl]

theorem scan_empty : d.scan position g outer (d.empty :: cs) =
    d.scan (position + 1) (g.push .empty) outer cs := by
  rw [scan_of_not_operator d d.markers_not_operators.2.2, if_neg d.markers_differ.2.1.symm,
    if_neg d.markers_differ.2.2.symm, if_pos rfl]

theorem scan_plain (h : d.IsPlain c) : d.scan position g outer (c :: cs) =
    (d.literal c position).bind fun r => d.scan (position + 1) (g.push r) outer cs := by
  have hoperator : c ∉ operators := fun hc => h (List.mem_append_left _ hc)
  have hmarker : c ∉ [d.escape, d.epsilon, d.empty] := fun hc => h (List.mem_append_right _ hc)
  simp only [List.mem_cons, List.not_mem_nil, or_false, not_or] at hmarker
  rw [scan_of_not_operator d hoperator, if_neg hmarker.1, if_neg hmarker.2.1, if_neg hmarker.2.2]

variable {d}

theorem literal_of_allows (h : d.allows (String.singleton c) = true) :
    d.literal c position = .ok (.literal (String.singleton c)) := if_pos h

theorem literal_of_not_allows (h : d.allows (String.singleton c) = false) :
    d.literal c position = .error (.notInAlphabet (String.singleton c) position) :=
  if_neg (ne_true_of_eq_false h)

@[simp]
theorem literal_eq_ok_iff : d.literal c position = .ok r ↔
    d.allows (String.singleton c) = true ∧ r = .literal (String.singleton c) := by
  unfold literal
  split
  · rename_i h
    rw [Except.ok.injEq]
    exact ⟨fun hr => ⟨h, hr.symm⟩, fun hr => hr.2.symm⟩
  · rename_i h
    exact iff_of_false (fun hr => by cases hr) fun hr => h hr.1

@[simp]
theorem literal_eq_error_iff {e : PatternError} : d.literal c position = .error e ↔
    d.allows (String.singleton c) = false ∧ .notInAlphabet (String.singleton c) position = e := by
  unfold literal
  cases d.allows (String.singleton c) <;> simp

end Dialect

end RegularLanguage
