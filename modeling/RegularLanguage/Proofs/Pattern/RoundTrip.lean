import RegularLanguage.Proofs.Pattern.Completeness
import RegularLanguage.Regex.Printer
/-!
# Patterns of expressions are read back

The text of an expression follows the grammar on the level of the expression's precedence
(`fits_structuralPattern`). An operand's text follows it on the level that its place asks for, since
it is put in parentheses otherwise (`fits_operandText`). So reading the pattern of an expression
gives the expression back (`parse_toPattern`).
-/

namespace RegularLanguage

def Regex.literals : Regex → List Symbol
  | .empty | .epsilon => []
  | .literal a => [a]
  | .concat r s | .union r s => r.literals ++ s.literals
  | .star r => r.literals

namespace Dialect

open Regex

variable {d : Dialect} {c : Char} {cs : List Char} {r : Regex} {text : String} {k least : Nat}

def markers (d : Dialect) : Markers := ⟨String.singleton d.epsilon, String.singleton d.empty⟩

/-! ## Literals -/

theorem occursIn_singleton_iff : occursIn [c] cs = true ↔ c ∈ cs := by
  induction cs with
  | nil => simp [occursIn]
  | cons x cs ih => simp [occursIn, ih]

/-- The backslash goes in front of the characters that are special, apart from the escape. -/
theorem needsEscape_markers_iff : needsEscape d.markers (String.singleton c) = true ↔
    c ∈ operators ++ ['\\', d.epsilon, d.empty] := by
  simp [needsEscape, markers, occursIn_singleton_iff, specials, operators,
    or_assoc]

/-- A single character that may be used is read back from its text. -/
theorem isAtom_literalText (hescape : d.escape = '\\')
    (hallowed : d.allows (String.singleton c) = true) :
    d.IsAtom (literalText d.markers (String.singleton c)).toList
      (.literal (String.singleton c)) := by
  rw [literalText]
  split
  · have hatom : d.IsAtom [d.escape, c] _ := .escaped hallowed
    rw [hescape] at hatom
    rwa [String.toList_append, String.toList_singleton]
  · rename_i hplain
    rw [needsEscape_markers_iff, ← hescape] at hplain
    rw [String.toList_singleton]
    exact .symbol hplain hallowed

/-! ## Operands -/

/-- The text may stand, without parentheses, for an operand that has to bind at least so tightly. -/
def Fits (d : Dialect) : Nat → List Char → Regex → Prop
  | 0 => d.IsUnion
  | 1 => d.IsTerm
  | 2 => d.IsFactor
  | _ => d.IsAtom

theorem IsAtom.fits (h : d.IsAtom cs r) : d.Fits k cs r :=
  match k with
  | 0 => .term (.factor (.atom h))
  | 1 => .factor (.atom h)
  | 2 => .atom h
  | _ + 3 => h

/-- A text that binds tightly may stand where less is asked for. -/
theorem Fits.mono (h : d.Fits k cs r) (hle : least ≤ k) : d.Fits least cs r := by
  match k, least with
  | 0, 0 => exact h
  | 1, 0 => exact .term h
  | 1, 1 => exact h
  | 2, 0 => exact .term (.factor h)
  | 2, 1 => exact .factor h
  | 2, 2 => exact h
  | _ + 3, _ => exact IsAtom.fits h

/-- An operand's text fits its place. -/
theorem fits_operandText (least : Nat) (h : d.Fits r.precedence text.toList r) :
    d.Fits least (operandText least r text).toList r := by
  rw [operandText]
  split
  · rw [String.toList_append, String.toList_append]
    exact IsAtom.fits (.group (.union (h.mono (Nat.zero_le _))))
  · rename_i hle
    exact h.mono (Nat.le_of_not_lt hle)

/-! ## Expressions -/

/-- The text of an expression fits where its outermost operator is asked for. -/
theorem fits_structuralPattern (hescape : d.escape = '\\')
    (h : ∀ a ∈ r.literals, (∃ c, a = String.singleton c) ∧ d.allows a = true) :
    d.Fits r.precedence (r.structuralPattern d.markers).toList r := by
  induction r with
  | empty =>
    have htext : (Regex.empty.structuralPattern d.markers).toList = [d.empty] :=
      String.toList_singleton _
    rw [htext]
    exact IsAtom.empty
  | epsilon =>
    have htext : (Regex.epsilon.structuralPattern d.markers).toList = [d.epsilon] :=
      String.toList_singleton _
    rw [htext]
    exact IsAtom.epsilon
  | literal a =>
    obtain ⟨⟨c, rfl⟩, hallowed⟩ := h a List.mem_cons_self
    exact isAtom_literalText hescape hallowed
  | concat r s ihr ihs =>
    obtain ⟨hr, hs⟩ := List.forall_mem_append.1 h
    rw [structuralPattern, String.toList_append]
    exact IsTerm.concat (fits_operandText 1 (ihr hr)) (fits_operandText 2 (ihs hs))
  | union r s ihr ihs =>
    obtain ⟨hr, hs⟩ := List.forall_mem_append.1 h
    rw [structuralPattern, String.toList_append, String.toList_append, List.append_assoc]
    exact IsUnion.union (fits_operandText 0 (ihr hr)) (fits_operandText 1 (ihs hs))
  | star r ih =>
    rw [structuralPattern, String.toList_append]
    exact IsFactor.star (fits_operandText 2 (ih h))

/-- Reading the pattern of an expression gives the expression back, if the dialect escapes by the
backslash and allows the literals, which are single characters. -/
theorem parse_toPattern (d : Dialect) (hescape : d.escape = '\\') (r : Regex)
    (h : ∀ a ∈ r.literals, (∃ c, a = String.singleton c) ∧ d.allows a = true) :
    d.parse (r.toPattern d.markers) = .ok r := by
  refine parse_of_denotes (.union ?_)
  rw [toPattern_eq_structuralPattern]
  exact (fits_structuralPattern hescape h).mono (Nat.zero_le _)

/-- A dialect with its own markers and few symbols, among them operators, markers and the
backslash. -/
def terse : Dialect where
  alphabet := some ["*", "0", "1", "\\", "a", "|"]
  epsilon := '1'
  empty := '0'

/-- Operands of every kind, and literals that need a backslash. -/
def crowded : Regex :=
  .star (.union (.concat (.literal "a") (.concat (.literal "*") .epsilon))
    (.union (.star (.star (.literal "0")))
      (.concat (.union .empty (.literal "\\")) (.literal "1"))))

theorem parse_toPattern_crowded : terse.escape = '\\' ∧
    (∀ a ∈ crowded.literals, (∃ c, a = String.singleton c) ∧ terse.allows a = true) ∧
      terse.parse (crowded.toPattern terse.markers) = .ok crowded := by
  have hliterals : ∀ a ∈ crowded.literals,
      (∃ c, a = String.singleton c) ∧ terse.allows a = true := by
    have hlist : crowded.literals = ["a", "*", "0", "\\", "1"] := rfl
    simp only [hlist, List.forall_mem_cons]
    exact ⟨⟨⟨'a', rfl⟩, by decide⟩, ⟨⟨'*', rfl⟩, by decide⟩, ⟨⟨'0', rfl⟩, by decide⟩,
      ⟨⟨'\\', rfl⟩, by decide⟩, ⟨⟨'1', rfl⟩, by decide⟩, by simp⟩
  exact ⟨rfl, hliterals, parse_toPattern terse rfl crowded hliterals⟩

end Dialect

end RegularLanguage
