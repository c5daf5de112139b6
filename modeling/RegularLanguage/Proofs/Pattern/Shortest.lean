import RegularLanguage.Proofs.Pattern.Symbols
/-!
# Patterns are written with the fewest parentheses

Two measures of a text, its length and the number of its opening parentheses, add up over the parts
of a text. Wherever the pattern of an expression has parentheses around an operand, every text of
the grammar has a group there, and where it has a backslash, so has every such text. Further groups
and backslashes only add to a measure. So no text that stands for an expression measures less than
the expression's pattern, but for the empty one (`IsMeasure.toPattern_le`).
-/

namespace RegularLanguage.Dialect

open Regex

variable {d : Dialect} {f : List Char → Nat} {c : Char} {cs : List Char} {r s : Regex}
  {least least' : Nat}

/-- A text measures what its parts measure together, and the marker of the empty word measures no
more than a pair of parentheses. -/
structure IsMeasure (d : Dialect) (f : List Char → Nat) : Prop where
  append : ∀ cs cs', f (cs ++ cs') = f cs + f cs'
  epsilon_le : f [d.epsilon] ≤ f ['('] + f [')']

theorem IsMeasure.nil (hf : d.IsMeasure f) : f [] = 0 := by
  have h := hf.append [] []
  rw [List.append_nil] at h
  omega

theorem IsMeasure.cons (hf : d.IsMeasure f) : f (c :: cs) = f [c] + f cs := hf.append [c] cs

theorem IsMeasure.group (hf : d.IsMeasure f) :
    f ('(' :: cs ++ [')']) = f ['('] + f cs + f [')'] := by
  rw [hf.append, hf.cons]

/-! ## The text of an operand -/

/-- The text of an expression at a place for operands that bind at least so tightly. -/
def operandAt (d : Dialect) (least : Nat) (r : Regex) : List Char :=
  (operandText least r (r.structuralPattern d.markers)).toList

theorem operandAt_of_le (h : least ≤ r.precedence) :
    d.operandAt least r = (r.structuralPattern d.markers).toList := by
  rw [operandAt, operandText, if_neg (Nat.not_lt.2 h)]

theorem operandAt_of_lt (h : r.precedence < least) :
    d.operandAt least r = '(' :: d.operandAt 0 r ++ [')'] := by
  rw [operandAt_of_le (Nat.zero_le _), operandAt, operandText, if_pos h, String.toList_append,
    String.toList_append]
  rfl

theorem operandAt_concat (h : least ≤ 1) :
    d.operandAt least (.concat r s) = d.operandAt 1 r ++ d.operandAt 2 s := by
  rw [operandAt_of_le h, structuralPattern, String.toList_append]
  rfl

theorem operandAt_union :
    d.operandAt 0 (.union r s) = d.operandAt 0 r ++ '|' :: d.operandAt 1 s := by
  rw [operandAt_of_le (Nat.zero_le _), structuralPattern, String.toList_append,
    String.toList_append, List.append_assoc]
  rfl

theorem operandAt_star (h : least ≤ 2) :
    d.operandAt least (.star r) = d.operandAt 2 r ++ ['*'] := by
  rw [operandAt_of_le h, structuralPattern, String.toList_append]
  rfl

theorem operandAt_literal (h : least ≤ 3) {a : Symbol} :
    d.operandAt least (.literal a) = (literalText d.markers a).toList := operandAt_of_le h

theorem operandAt_epsilon (h : least ≤ 3) : d.operandAt least .epsilon = [d.epsilon] := by
  rw [operandAt_of_le h, structuralPattern, markers, String.toList_singleton]

theorem operandAt_empty (h : least ≤ 3) : d.operandAt least .empty = [d.empty] := by
  rw [operandAt_of_le h, structuralPattern, markers, String.toList_singleton]

/-- An operand measures no more than it does in parentheses. -/
theorem IsMeasure.operandAt_le_group (hf : d.IsMeasure f) :
    f (d.operandAt least r) ≤ f ('(' :: d.operandAt 0 r ++ [')']) := by
  by_cases h : r.precedence < least
  · rw [operandAt_of_lt h]
  · rw [operandAt_of_le (Nat.not_lt.1 h), ← operandAt_of_le (Nat.zero_le _), hf.group]
    omega

/-- A place that asks for more makes an operand's text no shorter. -/
theorem IsMeasure.operandAt_mono (hf : d.IsMeasure f) (hle : least ≤ least') :
    f (d.operandAt least r) ≤ f (d.operandAt least' r) := by
  by_cases h : r.precedence < least'
  · rw [operandAt_of_lt h]
    exact hf.operandAt_le_group
  · have h' := Nat.not_lt.1 h
    rw [operandAt_of_le h', operandAt_of_le (Nat.le_trans hle h')]

/-! ## Literals -/

/-- A character that is read as itself is written as itself. -/
theorem operandAt_literal_plain (hescape : d.escape = '\\') (hplain : d.IsPlain c) :
    d.operandAt 3 (.literal (String.singleton c)) = [c] := by
  have hneeds : ¬ needsEscape d.markers (String.singleton c) = true := by
    rw [needsEscape_markers_iff, ← hescape]
    exact hplain
  rw [operandAt_literal (Nat.le_refl 3), literalText, if_neg hneeds, String.toList_singleton]

/-- A literal takes one backslash at most. -/
theorem IsMeasure.literal_le (hf : d.IsMeasure f) (hescape : d.escape = '\\') :
    f (d.operandAt 3 (.literal (String.singleton c))) ≤ f [d.escape, c] := by
  rw [operandAt_literal (Nat.le_refl 3), literalText, hescape]
  split
  · rw [String.toList_append, String.toList_singleton]
    rfl
  · have hpair : f ['\\', c] = f ['\\'] + f [c] := hf.cons
    rw [String.toList_singleton, hpair]
    omega

/-! ## Texts of the grammar -/

mutual

/-- A group measures no less than the expression where it has to be an atom. -/
theorem IsBody.group_le (hf : d.IsMeasure f) (hescape : d.escape = '\\') :
    ∀ {cs : List Char} {r : Regex}, d.IsBody cs r → f (d.operandAt 3 r) ≤ f ('(' :: cs ++ [')'])
  | _, _, .nothing => by
    rw [operandAt_epsilon (Nat.le_refl 3), hf.group, hf.nil]
    exact hf.epsilon_le
  | _, _, .union h => by
    have hle := h.measure_le hf hescape
    refine Nat.le_trans hf.operandAt_le_group ?_
    rw [hf.group, hf.group]
    omega

theorem IsAtom.measure_le (hf : d.IsMeasure f) (hescape : d.escape = '\\') :
    ∀ {cs : List Char} {r : Regex}, d.IsAtom cs r → f (d.operandAt 3 r) ≤ f cs
  | _, _, .symbol plain _ => by rw [operandAt_literal_plain hescape plain]
  | _, _, .escaped _ => hf.literal_le hescape
  | _, _, .epsilon => by rw [operandAt_epsilon (Nat.le_refl 3)]
  | _, _, .empty => by rw [operandAt_empty (Nat.le_refl 3)]
  | _, _, .group body => body.group_le hf hescape

theorem IsFactor.measure_le (hf : d.IsMeasure f) (hescape : d.escape = '\\') :
    ∀ {cs : List Char} {r : Regex}, d.IsFactor cs r → f (d.operandAt 2 r) ≤ f cs
  | _, _, .atom h => Nat.le_trans (hf.operandAt_mono (by decide)) (h.measure_le hf hescape)
  | _, _, .star h => by
    have hle := h.measure_le hf hescape
    rw [operandAt_star (Nat.le_refl 2), hf.append, hf.append]
    omega

theorem IsTerm.measure_le (hf : d.IsMeasure f) (hescape : d.escape = '\\') :
    ∀ {cs : List Char} {r : Regex}, d.IsTerm cs r → f (d.operandAt 1 r) ≤ f cs
  | _, _, .factor h => Nat.le_trans (hf.operandAt_mono (by decide)) (h.measure_le hf hescape)
  | _, _, .concat left right => by
    have hleft := left.measure_le hf hescape
    have hright := right.measure_le hf hescape
    rw [operandAt_concat (Nat.le_refl 1), hf.append, hf.append]
    omega

theorem IsUnion.measure_le (hf : d.IsMeasure f) (hescape : d.escape = '\\') :
    ∀ {cs : List Char} {r : Regex}, d.IsUnion cs r → f (d.operandAt 0 r) ≤ f cs
  | _, _, .term h => Nat.le_trans (hf.operandAt_mono (by decide)) (h.measure_le hf hescape)
  | _, _, @IsUnion.union _ cs cs' r s left right => by
    have hleft := left.measure_le hf hescape
    have hright := right.measure_le hf hescape
    have hbar : f ('|' :: cs') = f ['|'] + f cs' := hf.cons
    have hbar' : f ('|' :: d.operandAt 1 s) = f ['|'] + f (d.operandAt 1 s) := hf.cons
    rw [operandAt_union, hf.append, hf.append, hbar, hbar']
    omega

end

/-! ## Patterns -/

/-- Only the empty text may measure less than the pattern of the expression that it stands for. -/
theorem IsMeasure.toPattern_le (hf : d.IsMeasure f) (hescape : d.escape = '\\') {p : String}
    (h : d.parse p = .ok r) :
    p = "" ∧ r = .epsilon ∨ f (r.toPattern d.markers).toList ≤ f p.toList := by
  have hbody : d.IsBody p.toList r := denotes_of_parse h
  rw [toPattern_eq_structuralPattern, ← operandAt_of_le (Nat.zero_le _)]
  generalize hcs : p.toList = cs at hbody
  cases hbody with
  | nothing => exact .inl ⟨String.toList_eq_nil_iff.1 hcs, rfl⟩
  | union h => exact .inr (h.measure_le hf hescape)

theorem length_isMeasure : d.IsMeasure List.length := ⟨fun _ _ => List.length_append, by simp⟩

/-- Markers are no operators, so they are no parentheses. -/
theorem count_isMeasure : d.IsMeasure (List.count '(') := by
  have hepsilon : d.epsilon ≠ '(' := fun he => d.markers_not_operators.2.1 (he ▸ by decide)
  exact ⟨fun _ _ => List.count_append, by simp [hepsilon]⟩

/-- The pattern of an expression stands for it, and of all patterns that do it has the fewest
opening parentheses and is the shortest, but for the empty pattern. -/
theorem toPattern_fewest (r : Regex) (p : String) (h : ({} : Dialect).parse p = .ok r) :
    ({} : Dialect).parse (r.toPattern {}) = .ok r ∧
      (r.toPattern {}).toList.count '(' ≤ p.toList.count '(' ∧
      (p = "" ∨ (r.toPattern {}).length ≤ p.length) := by
  have hmarkers : ({} : Dialect).markers = {} := rfl
  have hfits := fits_structuralPattern rfl (allowsLiterals_of_parse h)
  have hlength := length_isMeasure.toPattern_le rfl h
  have hcount := count_isMeasure.toPattern_le rfl h
  rw [hmarkers] at hfits hlength hcount
  refine ⟨?_, ?_, hlength.imp And.left fun hle => ?_⟩
  · rw [toPattern_eq_structuralPattern]
    exact parse_of_denotes (.union (hfits.mono (Nat.zero_le _)))
  · rcases hcount with ⟨-, rfl⟩ | hle
    · simp [toPattern_eq_structuralPattern, structuralPattern]
    · exact hle
  · rwa [String.length_toList, String.length_toList] at hle

/-- Groups that are not needed, a backslash that is not, and the empty group for the empty word. -/
theorem toPattern_fewest_padded :
    let p := "((a)(\\b|()))*(cd)"
    let r : Regex := .concat (.star (.concat (.literal "a") (.union (.literal "b") .epsilon)))
      (.concat (.literal "c") (.literal "d"))
    ({} : Dialect).parse p = .ok r ∧ ({} : Dialect).parse (r.toPattern {}) = .ok r ∧
      (r.toPattern {}).toList.count '(' ≤ p.toList.count '(' ∧
      (p = "" ∨ (r.toPattern {}).length ≤ p.length) := by
  intro p r
  have h : ({} : Dialect).parse p = .ok r := by decide +kernel
  exact ⟨h, toPattern_fewest r p h⟩

end RegularLanguage.Dialect
